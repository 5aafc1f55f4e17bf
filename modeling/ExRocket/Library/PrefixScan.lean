import ExRocket.Library.Walk

/-! Scans of sorted entries whose keys are strings over an ordered alphabet. A scan starts at
a key and stops at the first entry that differs from it within a fixed length, or at none. It
meets exactly the entries that start with the key when no other entry shares that length. -/
namespace PrefixScan

open Walk

variable {A : Type}

/-- The same first characters, where a length is given. -/
def Shares (length : Option Nat) (start key : List A) : Prop :=
  ∀ n, length = some n → key.take n = start.take n

theorem shares_of_prefix {length : Option Nat} {start key : List A}
    (long : ∀ n, length = some n → n ≤ start.length) (starts : start <+: key) :
    Shares length start key := by
  intro n given
  obtain ⟨rest, rfl⟩ := starts
  exact List.take_append_of_le_length (long n given)

section Order

variable [LT A] [LE A] [Std.IsLinearOrder A] [Std.LawfulOrderLT A]

theorem take_le_take {a b : List A} (le : a ≤ b) (n : Nat) : a.take n ≤ b.take n := by
  induction n generalizing a b with
  | zero => exact List.nil_le _
  | succ n ih =>
    cases a with
    | nil => exact List.nil_le _
    | cons x a =>
      cases b with
      | nil => cases List.le_nil.mp le
      | cons y b =>
        rw [List.take_succ_cons, List.take_succ_cons, List.cons_le_cons_iff]
        rcases List.cons_le_cons_iff.mp le with less | ⟨same, rest⟩
        · exact .inl less
        · exact .inr ⟨same, ih rest⟩

/-- What lies between the start and a key that shares the length with it shares it too. -/
theorem shares_between {length : Option Nat} {start key key' : List A} (from_ : start ≤ key)
    (order : key ≤ key') (shares : Shares length start key') : Shares length start key := by
  intro n given
  have low := take_le_take from_ n
  have high := take_le_take order n
  rw [shares n given] at high
  exact Std.le_antisymm high low

end Order

section Scan

variable {V : Type} [LT A] [DecidableEq A] [DecidableLT A]

instance decidableShares (length : Option Nat) (start key : List A) :
    Decidable (Shares length start key) :=
  decidable_of_iff (length.all fun n => decide (key.take n = start.take n)) (by
    simp [Shares, Option.all_eq_true])

def scan (length : Option Nat) (start : List A) (entries : List (List A × V)) :
    List (List A × V) :=
  (entries.dropWhile fun e => decide (e.1 < start)).takeWhile
    fun e => decide (Shares length start e.1)

variable [LE A] [Std.IsLinearOrder A] [Std.LawfulOrderLT A]

theorem scan_eq {entries : List (List A × V)} (sorted : Sorted entries) (length : Option Nat)
    (start : List A) : scan length start entries =
      entries.filter fun e => decide (start ≤ e.1 ∧ Shares length start e.1) := by
  have above : entries.dropWhile (fun e => decide (e.1 < start)) =
      entries.filter fun e => decide (start ≤ e.1) := by
    rw [dropWhile_sorted sorted]
    · simp only [← decide_not, Std.not_lt]
    · intro a b order below
      simp only [decide_eq_true_eq] at below ⊢
      exact Std.lt_trans order below
  have kept : Sorted (entries.filter fun e => decide (start ≤ e.1)) := List.Pairwise.filter _ sorted
  rw [scan, above, takeWhile_sorted kept, List.filter_filter]
  · simp only [Bool.decide_and, Bool.and_comm]
  · intro a first b _ order shares
    have from_ : start ≤ a.1 := by simpa using (List.mem_filter.mp first).2
    simp only [decide_eq_true_eq] at shares ⊢
    exact shares_between from_ (Std.le_of_lt order) shares

theorem scan_sorted {entries : List (List A × V)} (sorted : Sorted entries) (length : Option Nat)
    (start : List A) : Sorted (scan length start entries) := by
  rw [scan_eq sorted]
  exact List.Pairwise.filter _ sorted

/-- The entries that start with the key are all met. Nothing else is met exactly when no
other entry from the key on shares the length with it. -/
theorem scan_exact_iff {entries : List (List A × V)} (sorted : Sorted entries)
    {length : Option Nat} {start : List A} (long : ∀ n, length = some n → n ≤ start.length) :
    scan length start entries = entries.filter (fun e => decide (start <+: e.1)) ↔
      ∀ e ∈ entries, start ≤ e.1 → Shares length start e.1 → start <+: e.1 := by
  rw [scan_eq sorted]
  constructor
  · intro same e member from_ shares
    have met : e ∈ entries.filter fun e => decide (start ≤ e.1 ∧ Shares length start e.1) := by
      simp [member, from_, shares]
    rw [same] at met
    simpa using (List.mem_filter.mp met).2
  · intro exact_
    apply List.filter_congr
    intro e member
    rw [decide_eq_decide]
    constructor
    · exact fun ⟨from_, shares⟩ => exact_ e member from_ shares
    · exact fun starts => ⟨starts.le, shares_of_prefix long starts⟩

end Scan
end PrefixScan
