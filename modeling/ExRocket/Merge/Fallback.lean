import ExRocket.Eetf.Wire
import ExRocket.Merge.Run

/-! The two kinds of result. A call writes the external form of its final term when an
operand decoded and there is a term to write; otherwise it writes a decimal text, which is
no external term. So what a result decodes to says which of the two happened. -/
namespace ExRocket

open Rust

variable {c : Eetf} {key : Bytes} {e : Option Bytes}

def Writes (c : Eetf) (final : Option EetfTerm) : Prop := ∀ t, final = some t → c.RoundTrips t

theorem writes_some {final : Option EetfTerm} {t : EetfTerm} (value : final = some t)
    (roundTrip : c.RoundTrips t) : Writes c final := by
  intro u same
  rw [value] at same
  cases same
  exact roundTrip

theorem counted_of_decoded {b : Bytes} {t : EetfTerm} (decodes : c.decode b = some t) :
    counted b = 0 := by
  rw [counted, c.decoded_not_text decodes]
  rfl

theorem stringSum_not_decoded (c : Eetf) (e : Option Bytes) (ops : List Bytes) :
    c.decode (stringSum e ops) = none :=
  c.text_not_decoded _

theorem settled_text {ops : List Bytes} {final : Option EetfTerm}
    (text : decoded c ops = [] ∨ final = none) : settled c e ops final = stringSum e ops := by
  rw [settled]
  rcases text with idle | absent
  · rw [if_pos idle]
  · rw [absent]
    exact ite_self _

theorem settled_term {ops : List Bytes} {t : EetfTerm} (processed : decoded c ops ≠ [])
    (roundTrip : c.RoundTrips t) :
    c.encode t = some (settled c e ops (some t)) ∧
      c.decode (settled c e ops (some t)) = some t := by
  obtain ⟨bytes, written, reads⟩ := roundTrip
  have result : settled c e ops (some t) = bytes := by
    rw [settled, if_neg processed, Option.bind_some, written]
    rfl
  rw [result]
  exact ⟨written, reads⟩

theorem settled_reads {ops : List Bytes} {final : Option EetfTerm} (writes : Writes c final) :
    c.decode (settled c e ops final) = if decoded c ops = [] then none else final := by
  by_cases idle : decoded c ops = []
  · rw [if_pos idle, settled_text (.inl idle)]
    exact stringSum_not_decoded c e ops
  · rw [if_neg idle]
    cases final with
    | none =>
      rw [settled_text (.inr rfl)]
      exact stringSum_not_decoded c e ops
    | some t => exact (settled_term idle (writes t rfl)).2

theorem settled_unread {ops : List Bytes} {final : Option EetfTerm} (writes : Writes c final)
    (unread : c.decode (settled c e ops final) = none) :
    (decoded c ops = [] ∨ final = none) ∧ settled c e ops final = stringSum e ops := by
  have text : decoded c ops = [] ∨ final = none := by
    rw [settled_reads writes] at unread
    by_cases idle : decoded c ops = []
    · exact .inl idle
    · rw [if_neg idle] at unread
      exact .inr unread
  exact ⟨text, settled_text text⟩

theorem settled_same_term {e' : Option Bytes} {ops ops' : List Bytes}
    {final final' : Option EetfTerm} {t : EetfTerm} (writes : Writes c final)
    (writes' : Writes c final') (reads : c.decode (settled c e ops final) = some t)
    (reads' : c.decode (settled c e' ops' final') = some t) :
    settled c e ops final = settled c e' ops' final' := by
  rw [settled_reads writes] at reads
  rw [settled_reads writes'] at reads'
  split at reads
  · cases reads
  · split at reads'
    · cases reads'
    · rename_i processed processed'
      subst reads reads'
      have first := (settled_term (e := e) processed (writes t rfl)).1
      have second := (settled_term (e := e') processed' (writes t rfl)).1
      exact Option.some.inj (first.symm.trans second)

/-- What a call returned, and what it decodes to. -/
theorem erlangMerge_reads {ops : List Bytes} {out : Bytes}
    (returns : erlangMerge c key e ops = .ok (some out))
    (writes : Writes c (referenceMerge c e ops)) :
    out = settled c e ops (referenceMerge c e ops) ∧
      c.decode out = if decoded c ops = [] then none else referenceMerge c e ops := by
  have result := Option.some.inj (erlangMerge_ok returns)
  constructor
  · exact result
  · rw [result, settled_reads writes]

theorem erlangMerge_same_term {e' : Option Bytes} {ops ops' : List Bytes} {out out' : Bytes}
    {t : EetfTerm} (returns : erlangMerge c key e ops = .ok (some out))
    (returns' : erlangMerge c key e' ops' = .ok (some out'))
    (writes : Writes c (referenceMerge c e ops)) (writes' : Writes c (referenceMerge c e' ops'))
    (reads : c.decode out = some t) (reads' : c.decode out' = some t) : out = out' := by
  have result := (erlangMerge_reads returns writes).1
  have result' := (erlangMerge_reads returns' writes').1
  subst result result'
  exact settled_same_term writes writes' reads reads'

/-- A call that returned no external term returned the sum of the texts. -/
theorem erlangMerge_unread {ops : List Bytes} {out : Bytes}
    (returns : erlangMerge c key e ops = .ok (some out))
    (writes : Writes c (referenceMerge c e ops))
    (unread : c.decode out = none) :
    (decoded c ops = [] ∨ referenceMerge c e ops = none) ∧ out = stringSum e ops := by
  have result := (erlangMerge_reads returns writes).1
  subst result
  exact settled_unread writes unread

theorem decoded_nil_iff {ops : List Bytes} :
    decoded c ops = [] ↔ ∀ op ∈ ops, c.decode op = none :=
  List.filterMap_eq_nil_iff

/-- With no operand in the external format the base is read as decimal text, so a stored
term is replaced by the sum of the operands' texts. -/
theorem stored_term_lost {b : Bytes} {t : EetfTerm} {ops : List Bytes}
    (stored : c.decode b = some t) (foreign : ∀ op ∈ ops, c.decode op = none) :
    ∃ out, erlangMerge c key (some b) ops = .ok (some out) ∧ c.decode out ≠ some t := by
  have idle : decoded c ops = [] := decoded_nil_iff.mpr foreign
  have text : settled c (some b) ops (some t) = stringSum (some b) ops := settled_text (.inl idle)
  refine ⟨stringSum (some b) ops, ?_, ?_⟩
  · rw [erlangMerge_eq, idle, ← text]
    simp [stored, runOperands, Except.map]
  · rw [stringSum_not_decoded]
    exact (Option.some_ne_none t).symm

theorem stored_term_lost_five :
    ∃ out, erlangMerge Wire.codec [] (some [131, 97, 5]) [[97, 98, 99]] = .ok (some out) ∧
      Wire.codec.decode out ≠ some (.fixInteger 5) :=
  stored_term_lost (by decide) (by decide)

/- The base is the integer 5 and the one operand is the text abc. -/
theorem stored_term_not_kept :
    Wire.codec.encode (.fixInteger 5) = some [131, 97, 5] ∧
    Wire.codec.decode [97, 98, 99] = none ∧
    ¬ ∃ out, erlangMerge Wire.codec [] (some [131, 97, 5]) [[97, 98, 99]] = .ok (some out) ∧
      Wire.codec.decode out = some (.fixInteger 5) := by
  refine ⟨by decide, by decide, ?_⟩
  rintro ⟨out, returns, reads⟩
  have result : erlangMerge Wire.codec [] (some [131, 97, 5]) [[97, 98, 99]] = .ok (some [48]) := by
    decide
  rw [result] at returns
  cases returns
  revert reads
  decide

end ExRocket
