import Mathlib.Algebra.Group.Nat.Defs
import Mathlib.Algebra.Ring.Int.Defs
import Mathlib.Data.List.InsertIdx

/-! Vectors and machine words of Rust's standard library, on a 64-bit target.
A vector is a list; every operation that panics on a bad index is an outcome.
Growing past isize::MAX is Rust's capacity overflow and stands for memory exhaustion. -/
namespace Rust

inductive Panic where
  | index | insert | remove | drain | capacity
  deriving DecidableEq, Repr

abbrev Outcome (α : Type) := Except Panic α

abbrev Bytes := List UInt8

def usizeSize : Nat := 2 ^ 64
def isizeMax : Nat := 2 ^ 63 - 1

/-- `v as usize` for an i32: sign extension, read back as an unsigned word. -/
def asUsize (v : Int32) : Nat := (v.toInt % 2 ^ 64).toNat

/-- Release arithmetic: the sum of two usize values wraps. -/
def usizeAdd (a b : Nat) : Nat := (a + b) % usizeSize

theorem asUsize_of_nonneg {v : Int32} (h : 0 ≤ v.toInt) : asUsize v = v.toInt.toNat := by
  have upper := v.toInt_lt
  unfold asUsize
  rw [Int.emod_eq_of_lt h (by omega)]

theorem asUsize_of_neg {v : Int32} (h : v.toInt < 0) :
    (asUsize v : Int) = 2 ^ 64 + v.toInt := by
  have lower := v.le_toInt
  unfold asUsize
  omega

theorem isizeMax_lt_asUsize {v : Int32} (h : v.toInt < 0) : isizeMax < asUsize v := by
  have lower := v.le_toInt
  have wrapped := asUsize_of_neg h
  unfold isizeMax
  omega

theorem asUsize_le_iff {v : Int32} {n : Nat} (fits : n ≤ isizeMax) :
    asUsize v ≤ n ↔ 0 ≤ v.toInt ∧ v.toInt ≤ n := by
  by_cases sign : 0 ≤ v.toInt
  · rw [asUsize_of_nonneg sign]
    omega
  · have large := isizeMax_lt_asUsize (Int.not_le.mp sign)
    omega

theorem asUsize_lt_iff {v : Int32} {n : Nat} (fits : n ≤ isizeMax) :
    asUsize v < n ↔ 0 ≤ v.toInt ∧ v.toInt < n := by
  by_cases sign : 0 ≤ v.toInt
  · rw [asUsize_of_nonneg sign]
    omega
  · have large := isizeMax_lt_asUsize (Int.not_le.mp sign)
    omega

/-- From an in-range start, the wrapped end `p + n` is in range exactly when the
true sum is; a negative count then ends before it starts. -/
theorem usizeAdd_le_iff {p n : Int32} {len : Nat} (fits : len ≤ isizeMax)
    (start : asUsize p ≤ len) :
    usizeAdd (asUsize p) (asUsize n) ≤ len ↔
      0 ≤ p.toInt + n.toInt ∧ p.toInt + n.toInt ≤ len := by
  obtain ⟨hp, hlen⟩ := (asUsize_le_iff fits).mp start
  have pval := asUsize_of_nonneg hp
  have plim := p.toInt_lt
  have nlim := n.toInt_lt
  have nlow := n.le_toInt
  unfold isizeMax at fits
  unfold usizeAdd usizeSize
  by_cases sign : 0 ≤ n.toInt
  · have nval := asUsize_of_nonneg sign
    omega
  · have nval := asUsize_of_neg (Int.not_le.mp sign)
    omega

theorem usizeAdd_toNat {p n : Int32} {len : Nat} (fits : len ≤ isizeMax)
    (start : asUsize p ≤ len) (stop : usizeAdd (asUsize p) (asUsize n) ≤ len) :
    (usizeAdd (asUsize p) (asUsize n) : Int) = p.toInt + n.toInt := by
  obtain ⟨hp, hlen⟩ := (asUsize_le_iff fits).mp start
  obtain ⟨hlo, hhi⟩ := (usizeAdd_le_iff fits start).mp stop
  have pval := asUsize_of_nonneg hp
  have nlim := n.toInt_lt
  unfold isizeMax at fits
  unfold usizeAdd usizeSize at *
  by_cases sign : 0 ≤ n.toInt
  · have nval := asUsize_of_nonneg sign
    omega
  · have nval := asUsize_of_neg (Int.not_le.mp sign)
    omega

namespace Vec

variable {α : Type}

/-- `xs[i]` -/
def index (xs : List α) (i : Nat) : Outcome α :=
  match xs[i]? with
  | some x => .ok x
  | none => .error .index

/-- `xs[i] = x` -/
def set (xs : List α) (i : Nat) (x : α) : Outcome (List α) :=
  if i < xs.length then .ok (xs.set i x) else .error .index

def extend (xs ys : List α) : Outcome (List α) :=
  if xs.length + ys.length ≤ isizeMax then .ok (xs ++ ys) else .error .capacity

def insert (xs : List α) (i : Nat) (x : α) : Outcome (List α) :=
  if xs.length < i then .error .insert
  else if xs.length + 1 ≤ isizeMax then .ok (xs.insertIdx i x) else .error .capacity

def remove (xs : List α) (i : Nat) : Outcome (List α) :=
  if i < xs.length then .ok (xs.eraseIdx i) else .error .remove

/-- `xs.drain(first..last)`, dropping what it yields. -/
def drain (xs : List α) (first last : Nat) : Outcome (List α) :=
  if first ≤ last ∧ last ≤ xs.length then .ok (xs.take first ++ xs.drop last)
  else .error .drain

def resize (xs : List α) (n : Nat) (x : α) : Outcome (List α) :=
  if n ≤ isizeMax then .ok (xs.take n ++ List.replicate (n - xs.length) x)
  else .error .capacity

/-- `for (i, y) in ys.iter().enumerate() { xs.insert(first + i, y) }` -/
def insertEach (xs : List α) (first : Nat) : List α → Outcome (List α)
  | [] => .ok xs
  | y :: ys => do
    let xs ← insert xs first y
    insertEach xs (first + 1) ys

@[simp] theorem index_zero (x : α) (xs : List α) : index (x :: xs) 0 = .ok x := rfl

@[simp] theorem index_succ (x : α) (xs : List α) (i : Nat) :
    index (x :: xs) (i + 1) = index xs i := rfl

theorem index_lt {xs : List α} {i : Nat} (h : i < xs.length) : index xs i = .ok xs[i] := by
  simp [index, h]

theorem insertIdx_eq_splice (xs : List α) (i : Nat) (x : α) (h : i ≤ xs.length) :
    xs.insertIdx i x = xs.take i ++ x :: xs.drop i := by
  induction xs generalizing i with
  | nil =>
    have hi : i = 0 := Nat.le_zero.mp h
    subst i
    rfl
  | cons a xs ih =>
    cases i with
    | zero => rfl
    | succ i => simp [ih i (Nat.le_of_succ_le_succ h)]

theorem splice_length (xs ys : List α) (first : Nat) :
    (xs.take first ++ ys ++ xs.drop first).length = xs.length + ys.length := by
  simp only [List.length_append, List.length_take, List.length_drop]
  omega

/-- Inserting one by one at moving indices splices the whole list in, in order. -/
theorem insertEach_eq (xs : List α) (first : Nat) (ys : List α)
    (inside : first ≤ xs.length) (fits : xs.length ≤ isizeMax) :
    insertEach xs first ys =
      if xs.length + ys.length ≤ isizeMax then .ok (xs.take first ++ ys ++ xs.drop first)
      else .error .capacity := by
  induction ys generalizing xs first with
  | nil => simp [insertEach, fits]
  | cons y ys ih =>
    have bound : ¬ xs.length < first := Nat.not_lt.mpr inside
    by_cases room : xs.length + 1 ≤ isizeMax
    · have grown : (xs.insertIdx first y).length = xs.length + 1 :=
        List.length_insertIdx_of_le_length inside y
      have shape := insertIdx_eq_splice xs first y inside
      have next := ih (xs.insertIdx first y) (first + 1) (by omega) (by omega)
      have head : (xs.insertIdx first y).take (first + 1) = xs.take first ++ [y] := by
        rw [shape, List.take_append]
        simp [Nat.min_eq_left inside, List.take_take]
      have tail : (xs.insertIdx first y).drop (first + 1) = xs.drop first := by
        rw [shape, List.drop_append]
        simp [Nat.min_eq_left inside]
      simp only [insertEach, insert, if_neg bound, if_pos room, bind, Except.bind, next, grown,
        head, tail, List.length_cons]
      have count : xs.length + 1 + ys.length = xs.length + (ys.length + 1) := by omega
      simp [count]
    · have full : ¬ xs.length + (y :: ys).length ≤ isizeMax := by
        simp only [List.length_cons]
        omega
      simp only [insertEach, insert, if_neg bound, if_neg room, if_neg full, bind, Except.bind]

theorem insertEach_drained (xs : List α) (first last : Nat) (ys : List α)
    (order : first ≤ last) (inside : last ≤ xs.length) (fits : xs.length ≤ isizeMax) :
    insertEach (xs.take first ++ xs.drop last) first ys =
      if (xs.take first ++ ys ++ xs.drop last).length ≤ isizeMax then
        .ok (xs.take first ++ ys ++ xs.drop last)
      else .error .capacity := by
  have start : (xs.take first).length = first := List.length_take_of_le (by omega)
  have drained : (xs.take first ++ xs.drop last).length = first + (xs.length - last) := by
    rw [List.length_append, start, List.length_drop]
  have whole : (xs.take first ++ ys ++ xs.drop last).length
      = (xs.take first ++ xs.drop last).length + ys.length := by
    simp only [List.length_append]
    omega
  have head : (xs.take first ++ xs.drop last).take first = xs.take first :=
    List.take_left' start
  have rest : (xs.take first ++ xs.drop last).drop first = xs.drop last :=
    List.drop_left' start
  rw [insertEach_eq _ _ ys (by omega) (by omega), head, rest, whole]

end Vec
end Rust
