import Mathlib
import Abacus.Proofs.Json.Decoding

/-!
The JSON forms and their values. Reading takes back what was written, but for the doubles that are
not finite: these are written as null, which an operand may be and a result may not. What has been
read of any text is finite, so writing and reading it again changes nothing. This holds of every
codec that obeys the forms and rounds numbers to the nearest double.
-/

namespace Abacus

open Json
open Decimal (isFinite)

namespace Json

variable {α σ : Type} {convert : Reader.Conversion} {d : Datum}

theorem filter_isFinite {x : Option Float} (h : ∀ a ∈ x, isFinite a = true) :
    x.filter isFinite = x := by
  cases x with
  | none => rfl
  | some a => exact Option.filter_some_pos (h a rfl)

namespace Datum

theorem IsString.text_eq {text : String} (h : d.IsString text) : d.text convert = .ok text := by
  obtain ⟨l, rfl, names⟩ := h
  exact Literal.content_eq_ok_iff.mpr names

theorem IsNumber.double_eq (nearest : convert.RoundsToNearest) {x : Float}
    (finite : isFinite x = true) (h : d.IsNumber x) : d.double convert = .ok x := by
  rw [IsNumber, if_pos finite] at h
  obtain ⟨f, rfl, rfl⟩ := h
  rw [double, Figure.double, nearest f finite, orFail]

theorem IsOptional.text_eq {o : Option String} (h : IsOptional IsString o d) :
    d.optional (Datum.text convert) = .ok o := by
  cases o with
  | none =>
    obtain rfl : d = .null := h
    rfl
  | some text =>
    obtain ⟨l, rfl, names⟩ := id h
    exact congrArg (Except.map some) (IsString.text_eq h)

theorem IsOptional.double_eq (nearest : convert.RoundsToNearest) {o : Option Float}
    (h : IsOptional IsNumber o d) : d.optional (Datum.double convert) = .ok (o.filter isFinite) := by
  cases o with
  | none =>
    obtain rfl : d = .null := h
    rfl
  | some x =>
    have is : d.IsNumber x := h
    rw [Option.filter_some]
    split_ifs with finite
    · have read := is.double_eq nearest finite
      rw [IsNumber, if_pos finite] at is
      obtain ⟨f, rfl, -⟩ := is
      exact congrArg (Except.map some) read
    · rw [IsNumber, if_neg finite] at is
      rw [is]
      rfl

end Datum

variable {slots : List (Slot σ)} {draft : Reader.Draft σ}

theorem enter_update (distinct : (slots.map (·.name)).Nodup) {slot : Slot σ} {m : Member}
    {u : σ → σ} (mem : slot ∈ slots) (named : m.1.Names slot.name) (new : slot.name ∉ draft.met)
    (updates : slot.update m.2 = .ok u) :
    enter slots draft m = .ok ⟨slot.name :: draft.met, u draft.record⟩ := by
  rw [enter_of_mem distinct mem named, if_neg new, updates]
  rfl

/-- What members with the names of slots do is done in their order. -/
theorem foldlM_enter (distinct : (slots.map (·.name)).Nodup) {ps : List (Slot σ × (σ → σ))}
    {ms : List Member} (updates : List.Forall₂
      (fun p (m : Member) => m.1.Names p.1.name ∧ p.1.update m.2 = .ok p.2) ps ms)
    (known : ∀ p ∈ ps, p.1 ∈ slots) (apart : (ps.map (·.1.name)).Nodup)
    (new : ∀ p ∈ ps, p.1.name ∉ draft.met) : ms.foldlM (enter slots) draft =
      .ok ⟨(ps.map (·.1.name)).reverse ++ draft.met, ps.foldl (fun r p => p.2 r) draft.record⟩ := by
  induction updates generalizing draft with
  | nil => rfl
  | @cons p m ps ms first _ ih =>
    rw [List.forall_mem_cons] at known new
    rw [List.map_cons, List.nodup_cons] at apart
    have entered := enter_update distinct known.1 first.1 new.1 first.2
    have new' : ∀ p' ∈ ps, p'.1.name ∉ p.1.name :: draft.met := by
      intro p' there met
      obtain same | before := List.mem_cons.mp met
      · exact apart.1 (same ▸ List.mem_map_of_mem there)
      · exact new.2 p' there before
    rw [List.foldlM_cons, entered]
    refine (ih known.2 apart.2 new').trans ?_
    rw [List.map_cons, List.reverse_cons, List.append_assoc]
    rfl

theorem ofMembers_eq (distinct : (slots.map (·.name)).Nodup) {ps : List (Slot σ × (σ → σ))}
    {ms : List Member} (start : σ) (all : ps.map (·.1) = slots) (updates : List.Forall₂
      (fun p (m : Member) => m.1.Names p.1.name ∧ p.1.update m.2 = .ok p.2) ps ms) :
    ofMembers slots start ms = .ok (ps.foldl (fun r p => p.2 r) start) := by
  have apart : (ps.map (·.1.name)).Nodup := by
    rw [← all, List.map_map] at distinct
    exact distinct
  have known : ∀ p ∈ ps, p.1 ∈ slots := fun p mem => all ▸ List.mem_map_of_mem mem
  rw [ofMembers, foldlM_enter distinct updates known apart (by simp)]
  rfl

/-- What is decoded of any text is decoded again from what is written of it, and written the same. -/
def Codec.Settled (codec : Codec α) : Prop :=
  ∀ text a, codec.decode text = .ok a →
    codec.decode (codec.encode a) = .ok a ∧
      (codec.decode (codec.encode a)).map codec.encode = .ok (codec.encode a)

namespace Codec.Obeys

variable {codec : Codec α} {form : Form α}

theorem decode_encode (obeys : codec.Obeys form) {a : α} {result : Except Failure α}
    (h : ∀ d, form.IsDatum a d → form.meaning d = result) :
    codec.decode (codec.encode a) = result := by
  obtain ⟨d, is, written⟩ := obeys.encodes a
  rw [obeys.decodes d _ written, h d is]

theorem settled (obeys : codec.Obeys form)
    (h : ∀ a, form.IsFinite a → ∀ d, form.IsDatum a d → form.meaning d = .ok a) :
    codec.Settled := by
  intro text a decoded
  rw [obeys.decode_encode (h a (obeys.finite text a decoded))]
  exact ⟨rfl, rfl⟩

end Codec.Obeys

end Json

namespace Operation

variable {convert : Reader.Conversion} {d : Datum} {op : Operation}

theorem ofDatum_eq (h : d.IsString op.name) : ofDatum convert d = .ok op := by
  obtain ⟨l, rfl, names⟩ := h
  rw [ofDatum, ofLiteral, Literal.content_eq_ok_iff.mpr names]
  dsimp only [bind, Except.bind]
  rw [ofName?_name, orFail]

theorem optional_ofDatum {o : Option Operation}
    (h : Datum.IsOptional (fun op => Datum.IsString op.name) o d) :
    d.optional (ofDatum convert) = .ok o := by
  cases o with
  | none =>
    obtain rfl : d = .null := h
    rfl
  | some op =>
    obtain ⟨l, rfl, names⟩ := id h
    exact congrArg (Except.map some) (ofDatum_eq h)

end Operation

namespace Request

variable {convert : Reader.Conversion} {d : Datum} {r : Request}

def withFiniteOperands (r : Request) : Request :=
  { r with operandA := r.operandA.filter isFinite, operandB := r.operandB.filter isFinite }

theorem Finite.withFiniteOperands (h : r.Finite) : r.withFiniteOperands = r := by
  rw [Request.withFiniteOperands, filter_isFinite h.operandA, filter_isFinite h.operandB]

theorem distinct_slots : ((slots convert).map (·.name)).Nodup := by
  have names : (slots convert).map (·.name) = Known.all.map Known.name := rfl
  rw [names]
  decide

theorem meaning_eq (nearest : convert.RoundsToNearest) (h : r.IsDatum d) :
    (form convert).meaning d = .ok r.withFiniteOperands := by
  obtain ⟨ms, rfl, are⟩ := h
  obtain _ | ⟨⟨n₁, expression⟩, _ | ⟨⟨n₂, operandA⟩, _ | ⟨⟨n₃, operandB⟩, _ |
    ⟨⟨n₄, operator⟩, ⟨⟩⟩⟩⟩⟩ := are
  have updates : List.Forall₂
      (fun (p : Slot Request × (Request → Request)) (m : Member) =>
        m.1.Names p.1.name ∧ p.1.update m.2 = .ok p.2)
      [(Known.expression.slot convert, fun q => { q with expression := r.expression }),
       (Known.operandA.slot convert, fun q => { q with operandA := r.operandA.filter isFinite }),
       (Known.operandB.slot convert, fun q => { q with operandB := r.operandB.filter isFinite }),
       (Known.operator.slot convert, fun q => { q with operator := r.operator })] _ :=
    .cons ⟨n₁, congrArg (Except.map _) expression.text_eq⟩
      (.cons ⟨n₂, congrArg (Except.map _) (operandA.double_eq nearest)⟩
        (.cons ⟨n₃, congrArg (Except.map _) (operandB.double_eq nearest)⟩
          (.cons ⟨n₄, congrArg (Except.map _) operator.text_eq⟩ .nil)))
  exact ofMembers_eq distinct_slots empty rfl updates

end Request

namespace Calculation

variable {convert : Reader.Conversion} {d : Datum} {c : Calculation}

def withFiniteOperands (c : Calculation) : Calculation :=
  { c with operandA := c.operandA.filter isFinite, operandB := c.operandB.filter isFinite }

theorem Finite.withFiniteOperands (h : c.Finite) : c.withFiniteOperands = c := by
  rw [Calculation.withFiniteOperands, filter_isFinite h.operandA, filter_isFinite h.operandB]

theorem distinct_slots : ((slots convert).map (·.name)).Nodup := by
  have names : (slots convert).map (·.name) =
      ["expression", "result", "operator", "operand_a", "operand_b"] := rfl
  rw [names]
  decide

theorem meaning_eq (nearest : convert.RoundsToNearest) (finite : isFinite c.result = true)
    (h : c.IsDatum d) : (form convert).meaning d = .ok c.withFiniteOperands := by
  obtain ⟨ms, rfl, are⟩ := h
  obtain _ | ⟨⟨n₁, expression⟩, _ | ⟨⟨n₂, result⟩, _ | ⟨⟨n₃, operator⟩, _ | ⟨⟨n₄, operandA⟩, _ |
    ⟨⟨n₅, operandB⟩, ⟨⟩⟩⟩⟩⟩⟩ := are
  have updates : List.Forall₂
      (fun (p : Slot Unfinished × (Unfinished → Unfinished)) (m : Member) =>
        m.1.Names p.1.name ∧ p.1.update m.2 = .ok p.2)
      (List.zip (slots convert)
        [fun u => { u with expression := some c.expression },
         fun u => { u with result := some c.result },
         fun u => { u with operator := some c.operator },
         fun u => { u with operandA := some (c.operandA.filter isFinite) },
         fun u => { u with operandB := some (c.operandB.filter isFinite) }]) _ :=
    .cons ⟨n₁, congrArg (Except.map _) expression.text_eq⟩
      (.cons ⟨n₂, congrArg (Except.map _) (result.double_eq nearest finite)⟩
        (.cons ⟨n₃, congrArg (Except.map _) (Operation.optional_ofDatum operator)⟩
          (.cons ⟨n₄, congrArg (Except.map _) (operandA.double_eq nearest)⟩
            (.cons ⟨n₅, congrArg (Except.map _) (operandB.double_eq nearest)⟩ .nil))))
  have read := ofMembers_eq distinct_slots Unfinished.empty rfl updates
  change (ofMembers (slots convert) Unfinished.empty _ >>= fun u => orFail .mismatch _) = _
  rw [read]
  rfl

end Calculation

end Abacus
