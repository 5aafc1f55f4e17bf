import Mathlib.Algebra.BigOperators.Group.Multiset.Basic
import ExRocket.Merge.Fallback

/-! What the decimal operators add up to. A number outside i64 is not parsed and counts as
zero, and the sum wraps at 64 bits, so the total is exact when it fits and what was dropped
adds up to a multiple of 2 ^ 64. -/
namespace ExRocket

open Rust

def FitsI64 (z : Int) : Prop := -2 ^ 63 ≤ z ∧ z < 2 ^ 63

instance (z : Int) : Decidable (FitsI64 z) := inferInstanceAs (Decidable (_ ∧ _))

/-- Decimal text: an optional sign and one or more digits, of any size. -/
def Decimal (bytes : Bytes) (n : Int) : Prop :=
  ∃ text, fromUtf8 bytes = some text ∧ parseSigned text = some n

/-- The stored value, absent or decimal text. -/
inductive Stored : Option Bytes → Int → Prop where
  | absent : Stored none 0
  | text {bytes : Bytes} {n : Int} : Decimal bytes n → Stored (some bytes) n

def fitting (ns : List Int) : List Int := ns.filter fun n => decide (FitsI64 n)

def dropped (ns : List Int) : List Int := ns.filter fun n => decide (¬ FitsI64 n)

theorem fitting_add_dropped (ns : List Int) : (fitting ns).sum + (dropped ns).sum = ns.sum := by
  have split := Multiset.sum_filter_add_sum_filter_not (s := (ns : Multiset Int)) FitsI64
  simpa [fitting, dropped] using split

theorem counted_decimal {bytes : Bytes} {n : Int} (text : Decimal bytes n) :
    counted bytes = Int64.ofInt (fitting [n]).sum := by
  obtain ⟨s, utf8, parsed⟩ := text
  have read : parseI64 s = if FitsI64 n then some (Int64.ofInt n) else none := by
    rw [parseI64, parsed]
    rfl
  rw [counted, utf8, Option.bind_some, read]
  by_cases fits : FitsI64 n
  · have whole : fitting [n] = [n] := by simp [fitting, fits]
    rw [whole, if_pos fits]
    simp
  · have none_ : fitting [n] = [] := by simp [fitting, fits]
    rw [none_, if_neg fits]
    rfl

theorem initialResult_stored {e : Option Bytes} {n : Int} (stored : Stored e n) :
    initialResult e = Int64.ofInt (fitting [n]).sum := by
  cases stored with
  | absent => rfl
  | text text => rw [initialResult_some, counted_decimal text]

theorem counted_sum {operands : List Bytes} {ks : List Int}
    (texts : List.Forall₂ Decimal operands ks) :
    (operands.map counted).sum = Int64.ofInt (fitting ks).sum := by
  induction texts with
  | nil => rfl
  | @cons o k operands ks text _ ih =>
    have split : (fitting (k :: ks)).sum = (fitting [k]).sum + (fitting ks).sum := by
      rw [← List.sum_append, fitting, fitting, fitting, ← List.filter_append]
      rfl
    rw [List.map_cons, List.sum_cons, counted_decimal text, ih, split, Int64.ofInt_add]

theorem decimal_injective {a b : Int} (same : decimal a = decimal b) : a = b := by
  have parsed := parseSigned_decimal a
  rw [same, parseSigned_decimal] at parsed
  exact (Option.some.inj parsed).symm

theorem intoBytes_injective {s t : Str} (same : intoBytes s = intoBytes t) : s = t := by
  have read := fromUtf8_intoBytes s
  rw [same, fromUtf8_intoBytes] at read
  exact (Option.some.inj read).symm

/-- A wrapped number is read back as itself when it fits and was wrapped by whole turns. -/
theorem toInt_ofInt_eq_iff (a b : Int) :
    (Int64.ofInt a).toInt = b ↔ FitsI64 b ∧ 2 ^ 64 ∣ b - a := by
  rw [Int64.toInt_ofInt, Int64.size, Int.bmod_def, FitsI64]
  omega

theorem stringSum_exact_iff {e : Option Bytes} {n : Int} {operands : List Bytes} {ks : List Int}
    (stored : Stored e n) (texts : List.Forall₂ Decimal operands ks) :
    stringSum e operands = intoBytes (decimal (n + ks.sum)) ↔
      FitsI64 (n + ks.sum) ∧ 2 ^ 64 ∣ (dropped (n :: ks)).sum := by
  have sum : operands.foldl addOperand (initialResult e) = Int64.ofInt (fitting (n :: ks)).sum := by
    rw [sum_operands, initialResult_stored stored, counted_sum texts, ← Int64.ofInt_add,
      ← List.sum_append, fitting, fitting, fitting, ← List.filter_append]
    rfl
  have missed : n + ks.sum - (fitting (n :: ks)).sum = (dropped (n :: ks)).sum := by
    have split := fitting_add_dropped (n :: ks)
    rw [List.sum_cons] at split
    omega
  rw [stringSum, i64ToString, sum, ← missed, ← toInt_ofInt_eq_iff]
  constructor
  · exact fun same => decimal_injective (intoBytes_injective same)
  · intro exact_
    rw [exact_]

theorem decimal_text (n : Int) : Decimal (intoBytes (decimal n)) n :=
  ⟨decimal n, fromUtf8_intoBytes _, parseSigned_decimal n⟩

/-- Decimal text is no external term, so the term operator falls back to the sum. -/
theorem erlangMerge_decimal (c : Eetf) (key : Bytes) (e : Option Bytes) {operands : List Bytes}
    {ks : List Int} (texts : List.Forall₂ Decimal operands ks) :
    erlangMerge c key e operands = .ok (some (stringSum e operands)) := by
  have idle : decoded c operands = [] := by
    rw [decoded_nil_iff]
    induction texts with
    | nil => exact fun _ member => absurd member List.not_mem_nil
    | @cons o k operands ks text _ ih =>
      obtain ⟨s, utf8, _⟩ := text
      intro o' member
      rcases List.mem_cons.mp member with rfl | later
      · rw [← intoBytes_fromUtf8 utf8]
        exact c.text_not_decoded s
      · exact ih o' later
  rw [erlangMerge_eq, idle, runOperands]
  exact congrArg (fun out => Except.ok (some out)) (settled_text (.inl idle))

theorem counter_exact_iff (c : Eetf) (key : Bytes) {e : Option Bytes} {n : Int}
    {operands : List Bytes} {ks : List Int} (stored : Stored e n)
    (texts : List.Forall₂ Decimal operands ks) :
    (counterMerge key e operands = some (intoBytes (decimal (n + ks.sum))) ↔
      FitsI64 (n + ks.sum) ∧ 2 ^ 64 ∣ (dropped (n :: ks)).sum) ∧
    (erlangMerge c key e operands = .ok (some (intoBytes (decimal (n + ks.sum)))) ↔
      FitsI64 (n + ks.sum) ∧ 2 ^ 64 ∣ (dropped (n :: ks)).sum) := by
  rw [erlangMerge_decimal c key e texts, ← stringSum_exact_iff stored texts, counterMerge]
  simp

theorem counter_exact_iff_two_operands :
    (counterMerge [] (some (intoBytes (decimal 40)))
        [intoBytes (decimal (-7)), intoBytes (decimal 9)] =
        some (intoBytes (decimal (40 + [-7, 9].sum))) ↔
      FitsI64 (40 + [-7, 9].sum) ∧ 2 ^ 64 ∣ (dropped [40, -7, 9]).sum) ∧
    (erlangMerge Wire.codec [] (some (intoBytes (decimal 40)))
        [intoBytes (decimal (-7)), intoBytes (decimal 9)] =
        .ok (some (intoBytes (decimal (40 + [-7, 9].sum)))) ↔
      FitsI64 (40 + [-7, 9].sum) ∧ 2 ^ 64 ∣ (dropped [40, -7, 9]).sum) :=
  counter_exact_iff Wire.codec [] (.text (decimal_text 40))
    (.cons (decimal_text (-7)) (.cons (decimal_text 9) .nil))

/- The largest i64 and then 1, on an absent key. -/
theorem counter_wraps :
    ¬ ∀ (e : Option Bytes) (n : Int) (operands : List Bytes) (ks : List Int), Stored e n →
      List.Forall₂ Decimal operands ks →
      counterMerge [] e operands = some (intoBytes (decimal (n + ks.sum))) := by
  intro exact_
  have texts : List.Forall₂ Decimal
      [intoBytes (decimal 9223372036854775807), intoBytes (decimal 1)]
      [9223372036854775807, 1] :=
    .cons (decimal_text _) (.cons (decimal_text 1) .nil)
  have total := Option.some.inj (exact_ none 0 _ _ .absent texts)
  have fits := ((stringSum_exact_iff .absent texts).mp total).1
  revert fits
  decide

end ExRocket
