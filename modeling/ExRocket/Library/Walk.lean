import Mathlib.Data.List.Forall2

/-! Cursors over sorted entries. A cursor looks at the entries between two bounds, stands on
one of them or past the last, and moves by key in one direction. From wherever it is placed
it visits what lies ahead in that direction, each entry once, and then stays past the end. -/
namespace Walk

section Filter

variable {α : Type} {r : α → α → Prop} [DecidableRel r]

/-- In a sorted walk the entries past the first of a suffix are the rest of the suffix. -/
theorem filter_past {xs rest : List α} {x : α} (sorted : xs.Pairwise r)
    (asymm : ∀ a b, r a b → ¬ r b a) (suffix : (x :: rest) <:+ xs) :
    xs.filter (fun y => decide (r x y)) = rest := by
  obtain ⟨before, rfl⟩ := suffix
  obtain ⟨_, tail, apart⟩ := List.pairwise_append.mp sorted
  obtain ⟨ahead, _⟩ := List.pairwise_cons.mp tail
  have behind : before.filter (fun y => decide (r x y)) = [] := by
    rw [List.filter_eq_nil_iff]
    intro y member
    have order := apart y member x List.mem_cons_self
    simpa using asymm y x order
  have here : ¬ r x x := fun loop => asymm x x loop loop
  have kept : rest.filter (fun y => decide (r x y)) = rest := by
    rw [List.filter_eq_self]
    intro y member
    simpa using ahead y member
  rw [List.filter_append, behind, List.filter_cons_of_neg (by simpa using here), kept,
    List.nil_append]

omit [DecidableRel r] in
/-- What holds from some point of a sorted walk on selects a suffix of it. -/
theorem filter_suffix {xs : List α} {p : α → Bool} (sorted : xs.Pairwise r)
    (upward : ∀ a b, r a b → p a = true → p b = true) : xs.filter p <:+ xs := by
  induction sorted with
  | nil => exact List.suffix_refl []
  | @cons x xs ahead _ ih =>
    cases holds : p x with
    | true =>
      have all : (x :: xs).filter p = x :: xs := by
        rw [List.filter_eq_self]
        intro y member
        rcases List.mem_cons.mp member with rfl | later
        · exact holds
        · exact upward x y (ahead y later) holds
      simp only [all, List.suffix_refl]
    | false =>
      rw [List.filter_cons_of_neg (by simp [holds])]
      exact ih.trans (List.suffix_cons x xs)

omit [DecidableRel r] in
/-- Taking a sorted walk while something holds is filtering it, when that never comes back. -/
theorem takeWhile_sorted {xs : List α} {p : α → Bool} (sorted : xs.Pairwise r)
    (downward : ∀ a ∈ xs, ∀ b ∈ xs, r a b → p b = true → p a = true) :
    xs.takeWhile p = xs.filter p := by
  induction sorted with
  | nil => rfl
  | @cons x xs ahead _ ih =>
    have rest := ih fun a first b second =>
      downward a (List.mem_cons_of_mem x first) b (List.mem_cons_of_mem x second)
    cases holds : p x with
    | true => rw [List.takeWhile_cons_of_pos holds, List.filter_cons_of_pos holds, rest]
    | false =>
      have none_ : (x :: xs).filter p = [] := by
        rw [List.filter_eq_nil_iff]
        intro y member later
        rcases List.mem_cons.mp member with rfl | member'
        · rw [holds] at later
          cases later
        · rw [downward x List.mem_cons_self y member (ahead y member') later] at holds
          cases holds
      rw [none_, List.takeWhile_cons_of_neg (by simp [holds])]

omit [DecidableRel r] in
theorem dropWhile_sorted {xs : List α} {p : α → Bool} (sorted : xs.Pairwise r)
    (downward : ∀ a b, r a b → p b = true → p a = true) :
    xs.dropWhile p = xs.filter fun x => !p x := by
  induction sorted with
  | nil => rfl
  | @cons x xs ahead _ ih =>
    cases holds : p x with
    | true =>
      rw [List.dropWhile_cons_of_pos holds, ih, List.filter_cons_of_neg (by simp [holds])]
    | false =>
      rw [List.dropWhile_cons_of_neg (by simp [holds])]
      symm
      rw [List.filter_eq_self]
      intro y member
      rcases List.mem_cons.mp member with rfl | later
      · simp [holds]
      · cases below : p y with
        | false => rfl
        | true =>
          rw [downward x y (ahead y later) below] at holds
          cases holds

end Filter

/-- The first n things a walk over these entries shows: the entries, then nothing. -/
def padded {α : Type} (n : Nat) (rest : List α) : List (Option α) :=
  (rest.map some ++ List.replicate n none).take n

theorem padded_succ {α : Type} (n : Nat) (rest : List α) :
    padded (n + 1) rest = rest.head? :: padded n rest.tail := by
  cases rest with
  | nil => simp [padded, List.replicate_succ]
  | cons e rest =>
    have short : ∀ k, n ≤ k → (rest.map some ++ List.replicate k none).take n =
        (rest.map some).take n ++ List.replicate (n - rest.length) none := by
      intro k enough
      rw [List.take_append, List.take_replicate, List.length_map]
      congr 2
      omega
    simp only [padded, List.map_cons, List.cons_append, List.take_succ_cons, List.head?_cons,
      List.tail_cons, short (n + 1) (by omega), short n (Nat.le_refl n)]

inductive Direction where
  | forward | reverse
  deriving DecidableEq

/-- Where a cursor is placed: at an end, at the first key from a key on, or at the last key
up to one. -/
inductive Seek (K : Type) where
  | toFirst
  | toLast
  | fromKey (key : K)
  | uptoKey (key : K)

variable {K V : Type}

structure Cursor (K V : Type) where
  between : List (K × V)
  direction : Direction
  current : Option (K × V)

def walk (entries : List (K × V)) : Direction → List (K × V)
  | .forward => entries
  | .reverse => entries.reverse

section Advance

variable [LT K]

def Sorted (entries : List (K × V)) : Prop := entries.Pairwise fun a b => a.1 < b.1

instance decidableSorted [DecidableLT K] (entries : List (K × V)) : Decidable (Sorted entries) :=
  inferInstanceAs (Decidable (entries.Pairwise fun a b => a.1 < b.1))

/-- One key lies past another in a direction. -/
def Past : Direction → K → K → Prop
  | .forward, a, b => a < b
  | .reverse, a, b => b < a

instance decidablePast [DecidableLT K] (d : Direction) (a b : K) : Decidable (Past d a b) :=
  match d with
  | .forward => inferInstanceAs (Decidable (a < b))
  | .reverse => inferInstanceAs (Decidable (b < a))

theorem walk_sorted {entries : List (K × V)} (sorted : Sorted entries) (d : Direction) :
    (walk entries d).Pairwise fun a b => Past d a.1 b.1 := by
  cases d with
  | forward => exact sorted
  | reverse => exact List.pairwise_reverse.mpr sorted

/-- The entries that a cursor has still to visit, the current one first. -/
structure Remains (c : Cursor K V) (rest : List (K × V)) : Prop where
  sorted : Sorted c.between
  current : c.current = rest.head?
  ahead : rest <:+ walk c.between c.direction

variable [DecidableLT K]

/-- To the nearest entry past the current one; a cursor past the end stays there. -/
def advance (c : Cursor K V) : Cursor K V :=
  { c with current := c.current.bind fun e =>
      (walk c.between c.direction).find? fun e' => decide (Past c.direction e.1 e'.1) }

/-- What a cursor shows in n steps. -/
def yields : Nat → Cursor K V → List (Option (K × V))
  | 0, _ => []
  | n + 1, c => c.current :: yields n (advance c)

variable [LE K] [Std.IsLinearOrder K] [Std.LawfulOrderLT K]

omit [DecidableLT K] in
theorem past_asymm (d : Direction) {a b : K} (past : Past d a b) : ¬ Past d b a := by
  cases d with
  | forward => exact fun back => Std.lt_irrefl (Std.lt_trans past back)
  | reverse => exact fun back => Std.lt_irrefl (Std.lt_trans past back)

theorem advance_remains {c : Cursor K V} {rest : List (K × V)} (remains : Remains c rest) :
    Remains (advance c) rest.tail := by
  obtain ⟨sorted, current, ahead⟩ := remains
  cases rest with
  | nil => exact ⟨sorted, by simp [advance, current], ahead⟩
  | cons e rest =>
    have past := filter_past (walk_sorted sorted c.direction)
      (fun a b => past_asymm c.direction) ahead
    refine ⟨sorted, ?_, (List.suffix_cons e rest).trans ahead⟩
    rw [List.tail_cons, ← past, List.head?_filter, advance, current]
    rfl

theorem yields_remains {c : Cursor K V} {rest : List (K × V)} (n : Nat)
    (remains : Remains c rest) : yields n c = padded n rest := by
  induction n generalizing c rest with
  | zero => rfl
  | succ n ih => rw [yields, padded_succ, ih (advance_remains remains), remains.current]

end Advance

section Place

variable [LE K] [LT K]

def Within (lower upper : Option K) (key : K) : Prop :=
  (∀ l ∈ lower, l ≤ key) ∧ ∀ u ∈ upper, key < u

variable [DecidableLE K] [DecidableLT K]

instance decidableWithin (lower upper : Option K) (key : K) : Decidable (Within lower upper key) :=
  inferInstanceAs (Decidable (_ ∧ _))

/-- The entries from the lower bound on and before the upper one. -/
def within (lower upper : Option K) (entries : List (K × V)) : List (K × V) :=
  entries.filter fun e => decide (Within lower upper e.1)

def place (lower upper : Option K) (entries : List (K × V)) : Seek K → Cursor K V
  | .toFirst => ⟨within lower upper entries, .forward, (within lower upper entries).head?⟩
  | .toLast => ⟨within lower upper entries, .reverse, (within lower upper entries).getLast?⟩
  | .fromKey key => ⟨within lower upper entries, .forward,
      (within lower upper entries).find? fun e => decide (key ≤ e.1)⟩
  | .uptoKey key => ⟨within lower upper entries, .reverse,
      (within lower upper entries).reverse.find? fun e => decide (e.1 ≤ key)⟩

/-- What a cursor is asked for. -/
def selected (lower upper : Option K) (entries : List (K × V)) : Seek K → List (K × V)
  | .toFirst => within lower upper entries
  | .toLast => (within lower upper entries).reverse
  | .fromKey key => (within lower upper entries).filter fun e => decide (key ≤ e.1)
  | .uptoKey key => ((within lower upper entries).filter fun e => decide (e.1 ≤ key)).reverse

/-- The keys on the side of the starting point that the cursor moves to. -/
def Seek.Admits : Seek K → K → Prop
  | .toFirst, _ | .toLast, _ => True
  | .fromKey start, key => start ≤ key
  | .uptoKey start, key => key ≤ start

instance decidableAdmits (seek : Seek K) (key : K) : Decidable (seek.Admits key) :=
  match seek with
  | .toFirst | .toLast => inferInstanceAs (Decidable True)
  | .fromKey start => inferInstanceAs (Decidable (start ≤ key))
  | .uptoKey start => inferInstanceAs (Decidable (key ≤ start))

theorem mem_selected {lower upper : Option K} {entries : List (K × V)} {seek : Seek K}
    {e : K × V} : e ∈ selected lower upper entries seek ↔
      e ∈ entries ∧ Within lower upper e.1 ∧ seek.Admits e.1 := by
  cases seek <;> simp [selected, within, Seek.Admits, and_comm, and_left_comm]

theorem within_sorted {entries : List (K × V)} (sorted : Sorted entries) (lower upper : Option K) :
    Sorted (within lower upper entries) :=
  List.Pairwise.filter _ sorted

variable [Std.IsLinearOrder K] [Std.LawfulOrderLT K]

theorem place_remains {entries : List (K × V)} (sorted : Sorted entries) (lower upper : Option K)
    (seek : Seek K) :
    Remains (place lower upper entries seek) (selected lower upper entries seek) := by
  have inside := within_sorted sorted lower upper
  cases seek with
  | toFirst => exact ⟨inside, rfl, List.suffix_refl _⟩
  | toLast => exact ⟨inside, List.head?_reverse.symm, List.suffix_refl _⟩
  | fromKey key =>
    refine ⟨inside, List.head?_filter.symm, ?_⟩
    apply filter_suffix inside
    intro a b order from_
    simp only [decide_eq_true_eq] at from_ ⊢
    exact Std.le_of_lt (Std.lt_of_le_of_lt from_ order)
  | uptoKey key =>
    have reversed : selected lower upper entries (.uptoKey key) =
        (within lower upper entries).reverse.filter fun e => decide (e.1 ≤ key) :=
      (List.filter_reverse ..).symm
    simp only [reversed]
    refine ⟨inside, List.head?_filter.symm, ?_⟩
    apply filter_suffix (walk_sorted inside .reverse)
    intro a b order upto
    simp only [decide_eq_true_eq] at upto ⊢
    exact Std.le_of_lt (Std.lt_of_lt_of_le order upto)

/-- A cursor visits exactly what it is asked for, in order, and then stays past the end. -/
theorem yields_place {entries : List (K × V)} (sorted : Sorted entries) (lower upper : Option K)
    (seek : Seek K) (n : Nat) :
    yields n (place lower upper entries seek) = padded n (selected lower upper entries seek) :=
  yields_remains n (place_remains sorted lower upper seek)

end Place
end Walk
