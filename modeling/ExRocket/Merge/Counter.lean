import ExRocket.Rust.Text
import ExRocket.Library.Regroup

/-! The counter operator: decimal i64 text, summed in release arithmetic.
Malformed bases and operands count as zero, so the operator is a sum over Int64. -/
namespace ExRocket

open Rust

instance int64AddCommMonoid : AddCommMonoid Int64 where
  add_assoc := Int64.add_assoc
  zero_add := Int64.zero_add
  add_zero := Int64.add_zero
  add_comm := Int64.add_comm
  nsmul := nsmulRec

/-- `let mut result: i64 = match existing_val { .. }` -/
def initialResult (existingVal : Option Bytes) : Int64 :=
  match existingVal with
  | some val =>
    match (fromUtf8 val).bind parseI64 with
    | some num => num
    | none => 0
  | none => 0

/-- The loop body: an operand that is not UTF-8 or not a decimal i64 is skipped. -/
def addOperand (result : Int64) (op : Bytes) : Int64 :=
  match fromUtf8 op with
  | some operandStr =>
    match parseI64 operandStr with
    | some operand => result + operand
    | none => result
  | none => result

/-- `result.to_string().into_bytes()` after the loop over the operands. -/
def stringSum (existingVal : Option Bytes) (operands : List Bytes) : Bytes :=
  intoBytes (i64ToString (operands.foldl addOperand (initialResult existingVal)))

def counterMerge (_key : Bytes) (existingVal : Option Bytes) (operands : List Bytes) :
    Option Bytes :=
  some (stringSum existingVal operands)

def counted (bytes : Bytes) : Int64 := ((fromUtf8 bytes).bind parseI64).getD 0

theorem addOperand_eq (result : Int64) (op : Bytes) :
    addOperand result op = result + counted op := by
  unfold addOperand counted
  cases fromUtf8 op with
  | none => exact (Int64.add_zero result).symm
  | some text =>
    cases h : parseI64 text with
    | none => simp [h]
    | some num => simp [h]

theorem initialResult_some (val : Bytes) : initialResult (some val) = counted val := by
  cases h : (fromUtf8 val).bind parseI64 <;> simp [initialResult, counted, h]

theorem sum_operands (ops : List Bytes) (start : Int64) :
    ops.foldl addOperand start = start + (ops.map counted).sum := by
  induction ops generalizing start with
  | nil => simp
  | cons op ops ih => simp [ih, addOperand_eq, add_assoc]

theorem counted_print (v : Int64) : counted (intoBytes (i64ToString v)) = v := by
  rw [counted, fromUtf8_intoBytes, Option.bind_some, parseI64_i64ToString, Option.getD_some]

/-- Both string operators are sums; the key plays no part. -/
def stringSumming : Regroup.Summing (fun e ops => some (stringSum e ops)) Int64 where
  value := counted
  start := initialResult
  print := fun v => intoBytes (i64ToString v)
  merge_eq := fun e ops => congrArg (fun v => some (intoBytes (i64ToString v)))
    (sum_operands ops (initialResult e))
  start_none := rfl
  start_some := initialResult_some
  value_print := counted_print

theorem counter_compaction_invariant (key : Bytes) {s t : Regroup.Pending Bytes}
    (run : Relation.ReflTransGen (Regroup.Compacts (counterMerge key)) s t) :
    t.read (counterMerge key) = s.read (counterMerge key) :=
  Regroup.compaction_run stringSumming.fullSplits stringSumming.partialSound run

theorem counter_schedule_independent (key : Bytes) (e : Option Bytes) (ops : List Bytes) :
    (∀ ops', ops.Perm ops' → counterMerge key e ops = counterMerge key e ops') ∧
    (∀ a r b, ops = a ++ r ++ b → r ≠ [] →
      ∃ p, counterMerge key none r = some p ∧
        counterMerge key e (a ++ [p] ++ b) = counterMerge key e ops) ∧
    (∀ ops', Regroup.Regroups (counterMerge key) ops ops' →
      counterMerge key e ops' = counterMerge key e ops) ∧
    (∀ a b, ops = a ++ b →
      ∃ v, counterMerge key e a = some v ∧
        counterMerge key (some v) b = counterMerge key e ops) := by
  refine ⟨?_, ?_, ?_, ?_⟩
  · exact fun ops' perm => stringSumming.orderFree e ops ops' perm
  · rintro a r b rfl nonempty
    exact ⟨_, rfl, stringSumming.partialSound e a r b _ nonempty rfl⟩
  · exact fun ops' grouped => Regroup.regroups_same_result stringSumming.partialSound grouped e
  · rintro a b rfl
    exact ⟨_, rfl, stringSumming.fullSplits e a b _ rfl⟩

end ExRocket
