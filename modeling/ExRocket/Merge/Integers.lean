import Mathlib.Tactic.Ring
import ExRocket.Merge.Documented

/-! Integer additions. The accumulator wraps at 32 bits on every step, and an integer that
does not fit i32 counts as zero, as a base and as an operand. Wrapping on the way is
harmless; what decides is the total and what the wide integers add up to. -/
namespace ExRocket

open Rust

def FitsI32 (z : Int) : Prop := -2 ^ 31 ≤ z ∧ z < 2 ^ 31

instance (z : Int) : Decidable (FitsI32 z) := inferInstanceAs (Decidable (_ ∧ _))

/-- An Erlang integer as eetf decodes it. -/
def intTerm (z : Int) : EetfTerm :=
  if FitsI32 z then .fixInteger (Int32.ofInt z) else .bigInteger z

def addTerm (k : Int) : EetfTerm := .tuple [.atom "int_add", intTerm k]

/-- What the code sees of an integer, and what it does not. -/
def narrow (z : Int) : Int := if FitsI32 z then z else 0
def wide (z : Int) : Int := if FitsI32 z then 0 else z

theorem narrow_add_wide (z : Int) : narrow z + wide z = z := by
  unfold narrow wide
  split <;> simp

theorem narrow_sum_add_wide_sum (ks : List Int) :
    (ks.map narrow).sum + (ks.map wide).sum = ks.sum := by
  induction ks with
  | nil => rfl
  | cons k ks ih =>
    simp only [List.map_cons, List.sum_cons]
    rw [← ih, add_add_add_comm, narrow_add_wide]

theorem ofInt_eq_ofInt_iff (a b : Int) : Int32.ofInt a = Int32.ofInt b ↔ 2 ^ 32 ∣ a - b := by
  rw [Int32.ofInt_eq_iff_bmod_eq_toInt, Int32.toInt_ofInt, Int32.size,
    Int.bmod_eq_bmod_iff_bmod_sub_eq_zero, ← Int.dvd_iff_bmod_eq_zero]
  exact Iff.rfl

theorem intTerm_eq_fix_iff (z a : Int) :
    intTerm z = .fixInteger (Int32.ofInt a) ↔ FitsI32 z ∧ 2 ^ 32 ∣ z - a := by
  unfold intTerm
  split
  · rename_i fits
    rw [EetfTerm.fixInteger.injEq, ofInt_eq_ofInt_iff]
    exact ⟨fun same => ⟨fits, same⟩, And.right⟩
  · rename_i large
    exact iff_of_false EetfTerm.noConfusion (fun same => large same.1)

theorem smallInteger_intTerm (z : Int) :
    smallInteger (some (intTerm z)) = Int32.ofInt (narrow z) := by
  unfold intTerm narrow
  split <;> rfl

theorem intTerm_injective {x y : Int} (same : intTerm x = intTerm y) : x = y := by
  unfold intTerm at same
  split at same
  · rename_i small
    split at same
    · rename_i small'
      have wrapped := (ofInt_eq_ofInt_iff x y).mp (EetfTerm.fixInteger.inj same)
      unfold FitsI32 at small small'
      omega
    · cases same
  · split at same
    · cases same
    · exact EetfTerm.bigInteger.inj same

section Run

variable {eq : EetfTerm → EetfTerm → Bool}

theorem read_addTerm (k : Int) :
    Operation.read (addTerm k) = if FitsI32 k then some (.intAdd (Int32.ofInt k)) else none := by
  unfold addTerm intTerm
  split <;> rfl

theorem referenceStep_addTerm (existing : Option EetfTerm) (k : Int) :
    referenceStep eq existing (addTerm k) =
      if FitsI32 k then some (.fixInteger (smallInteger existing + Int32.ofInt k))
      else existing := by
  rw [referenceStep, read_addTerm]
  by_cases fits : FitsI32 k <;> simp [fits, Operation.apply]

theorem reference_additions_fix (v : Int32) (ks : List Int) :
    reference eq (some (.fixInteger v)) (ks.map addTerm) =
      some (.fixInteger (v + Int32.ofInt (ks.map narrow).sum)) := by
  induction ks generalizing v with
  | nil => simp
  | cons k ks ih =>
    rw [List.map_cons, reference_cons, referenceStep_addTerm]
    split
    · rename_i fits
      simp only [ih]
      simp [narrow, fits, smallInteger, Int32.ofInt_add, Int32.add_assoc]
    · rename_i large
      simp only [ih]
      simp [narrow, large]

/-- The first operand that fits starts the accumulator; until then nothing changes. -/
theorem reference_additions (existing : Option EetfTerm) (ks : List Int) :
    reference eq existing (ks.map addTerm) =
      if ∃ k ∈ ks, FitsI32 k then
        some (.fixInteger (smallInteger existing + Int32.ofInt (ks.map narrow).sum))
      else existing := by
  induction ks with
  | nil => simp
  | cons k ks ih =>
    rw [List.map_cons, reference_cons, referenceStep_addTerm]
    by_cases fits : FitsI32 k
    · rw [if_pos fits, reference_additions_fix, if_pos ⟨k, List.mem_cons_self, fits⟩]
      simp [narrow, fits, Int32.ofInt_add, Int32.add_assoc]
    · simp only [if_neg fits, ih]
      simp [narrow, fits]

theorem run_additions (c : Eetf) {existing : Option EetfTerm} (fits : ValueFits existing)
    (ks : List Int) :
    runOperands c existing (ks.map addTerm) = .ok (reference c.eq existing (ks.map addTerm)) := by
  induction ks generalizing existing with
  | nil => rfl
  | cons k ks ih =>
    have step : processEetfMergeOperation c existing (addTerm k) =
        .ok (referenceStep c.eq existing (addTerm k)) := by
      rw [process_eq c existing fits, referenceStep, read_addTerm]
      split <;> rfl
    have within : ValueFits (referenceStep c.eq existing (addTerm k)) :=
      (process_ok fits step).2
    rw [List.map_cons, runOperands, step, reference_cons]
    exact ih within

end Run

/-- When a run of additions is exact. Once an operand fits i32, the total has to fit as
well, and the integers that do not fit have to add up to a multiple of 2 ^ 32; while none
fits, an integer has to be stored and the operands have to cancel. -/
def ExactAdditions (base : Option Int) (ks : List Int) : Prop :=
  if ∃ k ∈ ks, FitsI32 k then
    FitsI32 (base.getD 0 + ks.sum) ∧ 2 ^ 32 ∣ wide (base.getD 0) + (ks.map wide).sum
  else base ≠ none ∧ ks.sum = 0

theorem smallInteger_base (base : Option Int) :
    smallInteger (base.map intTerm) = Int32.ofInt (narrow (base.getD 0)) := by
  cases base with
  | none => rfl
  | some n => exact smallInteger_intTerm n

theorem reference_exact_iff (eq : EetfTerm → EetfTerm → Bool) (base : Option Int)
    (ks : List Int) :
    reference eq (base.map intTerm) (ks.map addTerm) = some (intTerm (base.getD 0 + ks.sum)) ↔
      ExactAdditions base ks := by
  rw [reference_additions, ExactAdditions]
  split
  · have missed : base.getD 0 + ks.sum - (narrow (base.getD 0) + (ks.map narrow).sum) =
        wide (base.getD 0) + (ks.map wide).sum := by
      have split := narrow_add_wide (base.getD 0)
      have splits := narrow_sum_add_wide_sum ks
      omega
    rw [smallInteger_base, ← Int32.ofInt_add, Option.some.injEq, eq_comm, intTerm_eq_fix_iff,
      missed]
  · cases base with
    | none => simp
    | some n =>
      simp only [Option.map_some, Option.getD_some, Option.some.injEq, ne_eq, reduceCtorEq,
        not_false_eq_true, true_and]
      constructor
      · intro same
        have total := intTerm_injective same
        omega
      · intro cancels
        rw [cancels, Int.add_zero]

section Codec

variable {c : Eetf} {key : Bytes} {e : Option Bytes}

theorem int_add_exact_iff {base : Option Int} {ks : List Int} {operands : List Bytes}
    (stored : e.bind c.decode = base.map intTerm) (nonempty : ks ≠ [])
    (encoded : operands.map c.decode = ks.map fun k => some (addTerm k))
    (writes : Writes c (referenceMerge c e operands)) :
    (∃ out, erlangMerge c key e operands = .ok (some out) ∧
      c.decode out = some (intTerm (base.getD 0 + ks.sum))) ↔ ExactAdditions base ks := by
  have terms : decoded c operands = ks.map addTerm :=
    decoded_of_map (by rw [encoded, List.map_map]; rfl)
  have processed : decoded c operands ≠ [] := by
    simp only [terms]
    simpa using nonempty
  have final : referenceMerge c e operands =
      reference c.eq (base.map intTerm) (ks.map addTerm) := by
    simp only [referenceMerge, stored, terms]
  have returns : erlangMerge c key e operands =
      .ok (some (settled c e operands (referenceMerge c e operands))) := by
    rw [erlangMerge_eq, terms, run_additions c (base_fits c e), final, stored]
    rfl
  have reads : c.decode (settled c e operands (referenceMerge c e operands)) =
      referenceMerge c e operands := by
    rw [settled_reads writes, if_neg processed]
  rw [← reference_exact_iff c.eq, ← final, ← reads]
  constructor
  · rintro ⟨out, same, total⟩
    rw [returns] at same
    cases same
    exact total
  · exact fun total => ⟨_, returns, total⟩

theorem int_add_exact_iff_two_additions :
    (∃ out, erlangMerge Wire.codec [] (some [131, 97, 5])
        [[131, 104, 2, 100, 0, 7, 105, 110, 116, 95, 97, 100, 100, 97, 7],
          [131, 104, 2, 100, 0, 7, 105, 110, 116, 95, 97, 100, 100, 98, 255, 255, 255, 254]] =
        .ok (some out) ∧
      Wire.codec.decode out = some (intTerm ((some 5).getD 0 + [7, -2].sum))) ↔
    ExactAdditions (some 5) [7, -2] :=
  int_add_exact_iff (by decide) (by decide) (by decide)
    (writes_some (t := .fixInteger 10) (by decide) ⟨_, rfl, by decide⟩)

/- Two operands on an absent key: 2147483647 and then 1 give -2147483648. -/
theorem int_add_wraps :
    ¬ ∀ (base : Option Int) (ks : List Int) (e : Option Bytes) (operands : List Bytes),
      e.bind Wire.codec.decode = base.map intTerm → ks ≠ [] →
      operands.map Wire.codec.decode = ks.map (fun k => some (addTerm k)) →
      Writes Wire.codec (referenceMerge Wire.codec e operands) →
      ∃ out, erlangMerge Wire.codec [] e operands = .ok (some out) ∧
        Wire.codec.decode out = some (intTerm (base.getD 0 + ks.sum)) := by
  intro exact
  obtain ⟨out, returns, reads⟩ := exact none [2147483647, 1] none
    [[131, 104, 2, 100, 0, 7, 105, 110, 116, 95, 97, 100, 100, 98, 127, 255, 255, 255],
      [131, 104, 2, 100, 0, 7, 105, 110, 116, 95, 97, 100, 100, 97, 1]]
    rfl (by decide) (by decide)
    (writes_some (t := .fixInteger (-2147483648)) (by decide) ⟨_, rfl, by decide⟩)
  have wrapped : erlangMerge Wire.codec [] none
      [[131, 104, 2, 100, 0, 7, 105, 110, 116, 95, 97, 100, 100, 98, 127, 255, 255, 255],
        [131, 104, 2, 100, 0, 7, 105, 110, 116, 95, 97, 100, 100, 97, 1]] =
      .ok (some [131, 98, 128, 0, 0, 0]) := by decide
  rw [wrapped] at returns
  cases returns
  revert reads
  decide

end Codec
end ExRocket
