import Mathlib.Algebra.BigOperators.Group.List.Basic
import Mathlib.Logic.Relation

/-! Merge operators of a log-structured store, over any type of values.
An operator turns a base and a list of pending operands into a value. The store may at
any time replace a run of operands by their merge without a base, or fold a prefix into
the base; the laws below say that no reader can tell. -/
namespace Regroup

variable {V : Type}

abbrev Operator (V : Type) := Option V → List V → Option V

/-- Folding a prefix of the operands into the base changes no result. -/
def FullSplits (m : Operator V) : Prop :=
  ∀ e a b v, m e a = some v → m (some v) b = m e (a ++ b)

/-- Merging a run without a base and using the result as one operand changes no result. -/
def PartialSound (m : Operator V) : Prop :=
  ∀ e a r b p, r ≠ [] → m none r = some p → m e (a ++ [p] ++ b) = m e (a ++ r ++ b)

def OrderFree (m : Operator V) : Prop :=
  ∀ e ops ops', ops.Perm ops' → m e ops = m e ops'

inductive Group (m : Operator V) : List V → List V → Prop where
  | run (a r b : List V) (p : V) : r ≠ [] → m none r = some p →
      Group m (a ++ r ++ b) (a ++ [p] ++ b)

/-- Any nesting of partial merges. -/
def Regroups (m : Operator V) : List V → List V → Prop := Relation.ReflTransGen (Group m)

theorem regroups_same_result {m : Operator V} (sound : PartialSound m) {ops ops' : List V}
    (grouped : Regroups m ops ops') (e : Option V) : m e ops' = m e ops := by
  induction grouped with
  | refl => rfl
  | tail _ step ih =>
    cases step with
    | run a r b p nonempty merged => exact (sound e a r b p nonempty merged).trans ih

/-- A key of the store: its base value and the operands not yet folded into it. -/
structure Pending (V : Type) where
  base : Option V
  operands : List V

inductive Compacts (m : Operator V) : Pending V → Pending V → Prop where
  | partialMerge (base : Option V) (ops ops' : List V) : Group m ops ops' →
      Compacts m ⟨base, ops⟩ ⟨base, ops'⟩
  | fullMerge (base : Option V) (a b : List V) (v : V) : a ≠ [] → m base a = some v →
      Compacts m ⟨base, a ++ b⟩ ⟨some v, b⟩

def Pending.read (m : Operator V) (s : Pending V) : Option V :=
  if s.operands = [] then s.base else m s.base s.operands

theorem group_nonempty {m : Operator V} {ops ops' : List V} (step : Group m ops ops') :
    ops ≠ [] ∧ ops' ≠ [] := by
  cases step with
  | run a r b p nonempty merged => simp [nonempty]

theorem compaction_step {m : Operator V} (full : FullSplits m) (sound : PartialSound m)
    {s t : Pending V} (step : Compacts m s t) : t.read m = s.read m := by
  cases step with
  | partialMerge base ops ops' group =>
    have ne := group_nonempty group
    have same := regroups_same_result sound (.single group) base
    simpa [Pending.read, ne] using same
  | fullMerge base a b v nonempty merged =>
    have split := full base a b v merged
    cases b with
    | nil => simp [Pending.read, nonempty, merged]
    | cons x b => simpa [Pending.read, nonempty] using split

/-- No schedule of compactions changes what a reader sees. -/
theorem compaction_run {m : Operator V} (full : FullSplits m) (sound : PartialSound m)
    {s t : Pending V} (run : Relation.ReflTransGen (Compacts m) s t) :
    t.read m = s.read m := by
  induction run with
  | refl => rfl
  | tail _ step ih => exact (compaction_step full sound step).trans ih

/-- An operator that adds up what its base and its operands stand for, and whose
printed result stands for the sum. -/
structure Summing (m : Operator V) (M : Type) [AddCommMonoid M] where
  value : V → M
  start : Option V → M
  print : M → V
  merge_eq : ∀ e ops, m e ops = some (print (start e + (ops.map value).sum))
  start_none : start none = 0
  start_some : ∀ v, start (some v) = value v
  value_print : ∀ x, value (print x) = x

namespace Summing

variable {m : Operator V} {M : Type} [AddCommMonoid M] (sums : Summing m M)
include sums

theorem result_value {e : Option V} {ops : List V} {v : V} (merged : m e ops = some v) :
    sums.value v = sums.start e + (ops.map sums.value).sum := by
  rw [sums.merge_eq] at merged
  cases merged
  exact sums.value_print _

theorem fullSplits : FullSplits m := by
  intro e a b v merged
  rw [sums.merge_eq (some v), sums.merge_eq e, sums.start_some, sums.result_value merged,
    List.map_append, List.sum_append, add_assoc]

theorem partialSound : PartialSound m := by
  intro e a r b p _ merged
  have value := sums.result_value merged
  rw [sums.start_none, zero_add] at value
  rw [sums.merge_eq, sums.merge_eq]
  simp [value]

theorem orderFree : OrderFree m := by
  intro e ops ops' perm
  rw [sums.merge_eq, sums.merge_eq, (perm.map sums.value).sum_eq]

end Summing
end Regroup
