import Mathlib.Data.List.Perm.Basic

/-! A fold that may fail and whose order does not matter. If steps that are apart commute, and
if which step fails is decided before its state is, then a list of steps that are pairwise apart
gives the same result in any order, failures included. -/
namespace Unordered

variable {σ α ε : Type}

/-- Two results are alike if they are the same failure, or if their states are related. -/
inductive Alike (r : σ → σ → Prop) : Except ε σ → Except ε σ → Prop where
  | ok {s t : σ} : r s t → Alike r (.ok s) (.ok t)
  | error (e : ε) : Alike r (.error e) (.error e)

/-- What each element does to the state, if it does not fail. -/
structure Changes (r : σ → σ → Prop) (apart : α → α → Prop) (failure : ε)
    (change : α → Except ε (σ → σ)) : Prop where
  same : Equivalence r
  fails : ∀ a e, change a = .error e → e = failure
  congr : ∀ a f, change a = .ok f → ∀ s t, r s t → r (f s) (f t)
  commute : ∀ a b f g, apart a b → change a = .ok f → change b = .ok g → ∀ s, r (g (f s)) (f (g s))

variable {r : σ → σ → Prop} {apart : α → α → Prop} {failure : ε} {change : α → Except ε (σ → σ)}

/-- One element after the other. -/
def fold (change : α → Except ε (σ → σ)) : List α → σ → Except ε σ
  | [], s => .ok s
  | a :: as, s => do
    let f ← change a
    fold change as (f s)

theorem fold_eq (step : σ → α → Except ε σ)
    (steps : ∀ s a, step s a = (change a).map fun f => f s) (as : List α) (s : σ) :
    as.foldlM step s = fold change as s := by
  induction as generalizing s with
  | nil => rfl
  | cons a as ih =>
    rw [List.foldlM_cons, steps, fold]
    cases change a with
    | error e => rfl
    | ok f => exact ih (f s)

theorem Alike.trans (same : Equivalence r) {x y z : Except ε σ} (first : Alike r x y)
    (second : Alike r y z) : Alike r x z := by
  cases first with
  | error e => exact second
  | ok related =>
    cases second with
    | ok related' => exact .ok (same.trans related related')

namespace Changes

variable (changes : Changes r apart failure change)
include changes

theorem fold_congr {s t : σ} (related : r s t) (as : List α) :
    Alike r (fold change as s) (fold change as t) := by
  induction as generalizing s t with
  | nil => exact .ok related
  | cons a as ih =>
    rw [fold, fold]
    cases acts : change a with
    | error e => exact .error e
    | ok f => exact ih (changes.congr a f acts s t related)

theorem fold_swap {a b : α} (away : apart a b) (as : List α) (s : σ) :
    Alike r (fold change (a :: b :: as) s) (fold change (b :: a :: as) s) := by
  simp only [fold]
  cases first : change a with
  | error e =>
    have e_eq := changes.fails a e first
    cases second : change b with
    | error e' =>
      have e'_eq := changes.fails b e' second
      rw [e_eq, e'_eq]
      exact .error failure
    | ok g => exact .error e
  | ok f =>
    cases second : change b with
    | error e' => exact .error e'
    | ok g => exact changes.fold_congr (changes.commute a b f g away first second s) as

/-- The order does not matter. -/
theorem fold_perm (symmetric : ∀ a b, apart a b → apart b a) {as bs : List α} (perm : as.Perm bs)
    (distinct : as.Pairwise apart) (s : σ) : Alike r (fold change as s) (fold change bs s) := by
  induction perm generalizing s with
  | nil => exact .ok (changes.same.refl s)
  | cons a perm ih =>
    rw [fold, fold]
    cases change a with
    | error e => exact .error e
    | ok f => exact ih (List.pairwise_cons.mp distinct).2 (f s)
  | swap a b as =>
    exact changes.fold_swap ((List.pairwise_cons.mp distinct).1 a List.mem_cons_self) as s
  | trans perm perm' ih ih' =>
    have distinct' := (perm.pairwise_iff fun {a b} => symmetric a b).mp distinct
    exact (ih distinct s).trans changes.same (ih' distinct' s)

end Changes
end Unordered
