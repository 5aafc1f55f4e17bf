import ExRocket.Merge.Reference

/-! The code refines the reference: an operation that does not run out of memory panics
exactly when it is inverted, and otherwise yields the reference result. -/
namespace ExRocket

open Rust

instance (t : EetfTerm) : Decidable t.Fits :=
  match t with
  | .list elements => inferInstanceAs (Decidable (elements.length ≤ isizeMax))
  | .binary bytes => inferInstanceAs (Decidable (bytes.length ≤ isizeMax))
  | .atom _ | .fixInteger _ | .bigInteger _ | .tuple _ | .other _ => .isTrue trivial

def ValueFits (existing : Option EetfTerm) : Prop := ∀ t, existing = some t → t.Fits

theorem valueFits_none : ValueFits none := by
  intro t impossible
  cases impossible

theorem valueFits_some {t : EetfTerm} (fits : t.Fits) : ValueFits (some t) := by
  intro u same
  cases same
  exact fits

theorem clonedList_fits {existing : Option EetfTerm} (fits : ValueFits existing) :
    (clonedList existing).length ≤ isizeMax := by
  unfold clonedList
  split
  · exact fits _ rfl
  · exact Nat.zero_le _

theorem clonedBinary_fits {existing : Option EetfTerm} (fits : ValueFits existing) :
    (clonedBinary existing).length ≤ isizeMax := by
  unfold clonedBinary
  split
  · exact fits _ rfl
  · exact Nat.zero_le _

namespace Operation

/-- What an operation does: panic in drain, run out of capacity, or the reference result. -/
def outcome (eq : EetfTerm → EetfTerm → Bool) (existing : Option EetfTerm) (op : Operation) :
    Outcome (Option EetfTerm) :=
  if op.Inverted existing then .error .drain
  else if (op.apply eq existing).Fits then .ok (some (op.apply eq existing))
  else .error .capacity

def outcomeOf (eq : EetfTerm → EetfTerm → Bool) (existing : Option EetfTerm) :
    Option Operation → Outcome (Option EetfTerm)
  | some op => op.outcome eq existing
  | none => .ok existing

theorem outcome_inverted {eq : EetfTerm → EetfTerm → Bool} {existing : Option EetfTerm}
    {op : Operation} (inverted : op.Inverted existing) :
    op.outcome eq existing = .error .drain := by
  rw [outcome, if_pos inverted]

theorem outcome_list {eq : EetfTerm → EetfTerm → Bool} {existing : Option EetfTerm}
    {op : ListOp} {ys : List EetfTerm} (sane : ¬ (list op).Inverted existing)
    (result : op.apply eq (clonedList existing) = ys) :
    (list op).outcome eq existing =
      if ys.length ≤ isizeMax then .ok (some (.list ys)) else .error .capacity := by
  subst result
  rw [outcome, if_neg sane]
  rfl

theorem outcome_list_fits {eq : EetfTerm → EetfTerm → Bool} {existing : Option EetfTerm}
    {op : ListOp} {ys : List EetfTerm} (sane : ¬ (list op).Inverted existing)
    (result : op.apply eq (clonedList existing) = ys) (fits : ys.length ≤ isizeMax) :
    (list op).outcome eq existing = .ok (some (.list ys)) := by
  rw [outcome_list sane result, if_pos fits]

theorem outcome_binary {eq : EetfTerm → EetfTerm → Bool} {existing : Option EetfTerm}
    {op : BinaryOp} {ys : Bytes} (sane : ¬ (binary op).Inverted existing)
    (result : op.apply (clonedBinary existing) = ys) :
    (binary op).outcome eq existing =
      if ys.length ≤ isizeMax then .ok (some (.binary ys)) else .error .capacity := by
  subst result
  rw [outcome, if_neg sane]
  rfl

theorem outcome_binary_fits {eq : EetfTerm → EetfTerm → Bool} {existing : Option EetfTerm}
    {op : BinaryOp} {ys : Bytes} (sane : ¬ (binary op).Inverted existing)
    (result : op.apply (clonedBinary existing) = ys) (fits : ys.length ≤ isizeMax) :
    (binary op).outcome eq existing = .ok (some (.binary ys)) := by
  rw [outcome_binary sane result, if_pos fits]

end Operation

section Steps

variable {eq : EetfTerm → EetfTerm → Bool} {existing : Option EetfTerm}

open Operation (outcomeOf outcome_list outcome_list_fits outcome_binary outcome_binary_fits
  outcome_inverted)

theorem existingInt_eq (existing : Option EetfTerm) :
    existingInt existing = (smallInteger existing).toInt64 := by
  cases existing with
  | none => rfl
  | some t => cases t <;> rfl

theorem intAdd_eq (x a : EetfTerm) (args : List EetfTerm) :
    intAdd existing (x :: a :: args) =
      outcomeOf eq existing (Operation.readIntAdd (a :: args)) := by
  cases a with
  | fixInteger k =>
    have word : ((smallInteger existing).toInt64 + k.toInt64).toInt32
        = smallInteger existing + k := by simp
    change Except.ok (some (EetfTerm.fixInteger (existingInt existing + k.toInt64).toInt32))
      = Except.ok (some (EetfTerm.fixInteger (smallInteger existing + k)))
    rw [existingInt_eq, word]
  | _ => rfl

/-- The shared tail of the growing operations: a checked vector, wrapped as a term. -/
theorem checked_vector {α : Type} (wrap : List α → EetfTerm) (length : Nat) (ys : List α) :
    ((if length ≤ isizeMax then Except.ok ys else Except.error Panic.capacity : Outcome (List α))
      >>= fun ys => pure (some (wrap ys))) =
      if length ≤ isizeMax then .ok (some (wrap ys)) else .error .capacity := by
  split <;> rfl

theorem listAppend_eq (x a : EetfTerm) (args : List EetfTerm) :
    listAppend existing (x :: a :: args) =
      outcomeOf eq existing (Operation.readList .append (a :: args)) := by
  cases a with
  | list ys =>
    have result : (ListOp.append ys).apply eq (clonedList existing)
        = clonedList existing ++ ys := rfl
    change _ = Operation.outcome eq existing (.list (.append ys))
    rw [outcome_list id result, List.length_append]
    exact checked_vector .list _ _
  | _ => rfl

theorem listPrepend_eq (fits : ValueFits existing) (x a : EetfTerm) (args : List EetfTerm) :
    listPrepend existing (x :: a :: args) =
      outcomeOf eq existing (Operation.readList .prepend (a :: args)) := by
  cases a with
  | list ys =>
    have spliced := Vec.insertEach_eq (clonedList existing) 0 ys (Nat.zero_le _)
      (clonedList_fits fits)
    rw [List.take_zero, List.nil_append, List.drop_zero] at spliced
    have result : (ListOp.prepend ys).apply eq (clonedList existing)
        = ys ++ clonedList existing := rfl
    change (Vec.insertEach (clonedList existing) 0 ys >>= fun list => return some (.list list))
      = Operation.outcome eq existing (.list (.prepend ys))
    rw [outcome_list id result, List.length_append, Nat.add_comm, spliced]
    exact checked_vector .list _ _
  | _ => rfl

theorem listSubtract_eq (c : Eetf) (fits : ValueFits existing) (x a : EetfTerm)
    (args : List EetfTerm) :
    listSubtract existing (x :: a :: args) c =
      outcomeOf c.eq existing (Operation.readList .subtract (a :: args)) := by
  cases a with
  | list ys =>
    have shorter := Nat.le_trans
      (List.length_filter_le (fun x => !ys.any (c.eq · x)) (clonedList existing))
      (clonedList_fits fits)
    exact (outcome_list_fits id rfl shorter : (Operation.list (.subtract ys)).outcome _ _ = _).symm
  | _ => rfl

/-- The bounds test of the code, on a sign-extended word, against the length it guards. -/
theorem position_inside {α : Type} {xs : List α} {p : Int32} (fits : xs.length ≤ isizeMax) :
    (0 ≤ p.toInt ∧ p.toInt < xs.length ∧ asUsize p = p.toInt.toNat ∧ asUsize p < xs.length) ∨
      (¬ (0 ≤ p.toInt ∧ p.toInt < xs.length) ∧ ¬ asUsize p < xs.length) := by
  have inside := asUsize_lt_iff (v := p) fits
  by_cases hit : asUsize p < xs.length
  · obtain ⟨low, high⟩ := inside.mp hit
    exact .inl ⟨low, high, asUsize_of_nonneg low, hit⟩
  · exact .inr ⟨fun within => hit (inside.mpr within), hit⟩

theorem position_upto {α : Type} {xs : List α} {p : Int32} (fits : xs.length ≤ isizeMax) :
    (0 ≤ p.toInt ∧ p.toInt ≤ xs.length ∧ asUsize p = p.toInt.toNat ∧ asUsize p ≤ xs.length) ∨
      (¬ (0 ≤ p.toInt ∧ p.toInt ≤ xs.length) ∧ ¬ asUsize p ≤ xs.length) := by
  have inside := asUsize_le_iff (v := p) fits
  by_cases hit : asUsize p ≤ xs.length
  · obtain ⟨low, high⟩ := inside.mp hit
    exact .inl ⟨low, high, asUsize_of_nonneg low, hit⟩
  · exact .inr ⟨fun within => hit (inside.mpr within), hit⟩

theorem listSet_eq (fits : ValueFits existing) (x : EetfTerm) (args : List EetfTerm) :
    listSet existing (x :: args) = outcomeOf eq existing (Operation.readListSet args) := by
  match args with
  | [] => rfl
  | [a] => cases a <;> rfl
  | a :: v :: args =>
    cases a with
    | fixInteger p =>
      have len := clonedList_fits fits
      change (if asUsize p < (clonedList existing).length then _ else _)
        = Operation.outcome eq existing (.list (.set p v))
      rcases position_inside (p := p) len with ⟨low, high, word, inside⟩ | ⟨outside, missed⟩
      · have result : (ListOp.set p v).apply eq (clonedList existing)
            = (clonedList existing).set p.toInt.toNat v := if_pos ⟨low, high⟩
        have kept : ((clonedList existing).set p.toInt.toNat v).length ≤ isizeMax := by
          rwa [List.length_set]
        rw [outcome_list_fits id result kept, if_pos inside, Vec.set, if_pos inside, word]
        rfl
      · have result : (ListOp.set p v).apply eq (clonedList existing)
            = clonedList existing := if_neg outside
        rw [outcome_list_fits id result len, if_neg missed]
        rfl
    | _ => rfl

/-- The two bounds are checked apart: with an end before the start, drain panics. -/
theorem deleteRange_eq (fits : ValueFits existing) (s e : Int32) :
    (if asUsize s < (clonedList existing).length ∧ asUsize e ≤ (clonedList existing).length then
      Vec.drain (clonedList existing) (asUsize s) (asUsize e) >>= fun list =>
        pure (some (EetfTerm.list list))
    else pure (some (.list (clonedList existing))) : Outcome (Option EetfTerm)) =
      Operation.outcome eq existing (.list (.deleteRange s e)) := by
  have len := clonedList_fits fits
  rcases position_inside (p := s) len with ⟨slow, shigh, sword, sin⟩ | ⟨sout, smiss⟩
  · rcases position_upto (p := e) len with ⟨elow, ehigh, eword, ein⟩ | ⟨eout, emiss⟩
    · rw [if_pos ⟨sin, ein⟩]
      by_cases order : s.toInt ≤ e.toInt
      · have sane : ¬ (Operation.list (.deleteRange s e)).Inverted existing := by
          rintro ⟨_, before, _⟩
          omega
        have result : (ListOp.deleteRange s e).apply eq (clonedList existing) =
            (clonedList existing).take s.toInt.toNat ++ (clonedList existing).drop e.toInt.toNat :=
          if_pos ⟨slow, order, ehigh⟩
        have shorter : ((clonedList existing).take s.toInt.toNat ++
            (clonedList existing).drop e.toInt.toNat).length ≤ isizeMax := by
          simp only [List.length_append, List.length_take, List.length_drop]
          omega
        have range : asUsize s ≤ asUsize e ∧ asUsize e ≤ (clonedList existing).length := by omega
        rw [outcome_list_fits sane result shorter, Vec.drain, if_pos range, sword, eword]
        rfl
      · have inverted : (Operation.list (.deleteRange s e)).Inverted existing :=
          ⟨elow, by omega, shigh⟩
        have range : ¬ (asUsize s ≤ asUsize e ∧ asUsize e ≤ (clonedList existing).length) := by
          omega
        rw [outcome_inverted inverted, Vec.drain, if_neg range]
        rfl
    · have sane : ¬ (Operation.list (.deleteRange s e)).Inverted existing := by
        rintro ⟨elow, before, _⟩
        exact eout ⟨elow, by omega⟩
      have result : (ListOp.deleteRange s e).apply eq (clonedList existing)
          = clonedList existing := if_neg fun range => eout ⟨by omega, range.2.2⟩
      rw [if_neg fun range => emiss range.2, outcome_list_fits sane result len]
      rfl
  · have sane : ¬ (Operation.list (.deleteRange s e)).Inverted existing := by
      rintro ⟨elow, before, shigh⟩
      exact sout ⟨by omega, shigh⟩
    have result : (ListOp.deleteRange s e).apply eq (clonedList existing)
        = clonedList existing := by
      rw [ListOp.apply]
      split
      · -- only the empty range at the very end is left
        rename_i range
        have atEnd : s.toInt.toNat = (clonedList existing).length ∧
            e.toInt.toNat = (clonedList existing).length := by omega
        rw [atEnd.1, atEnd.2, List.take_length, List.drop_length, List.append_nil]
      · rfl
    rw [if_neg fun range => smiss range.1, outcome_list_fits sane result len]
    rfl

theorem listDelete_eq (fits : ValueFits existing) (x : EetfTerm) (args : List EetfTerm) :
    listDelete existing (x :: args) = outcomeOf eq existing (Operation.readListDelete args) := by
  have len := clonedList_fits fits
  match args with
  | [] => rfl
  | [a] =>
    cases a with
    | fixInteger p =>
      change (if asUsize p < (clonedList existing).length then _ else _)
        = Operation.outcome eq existing (.list (.delete p))
      rcases position_inside (p := p) len with ⟨low, high, word, inside⟩ | ⟨outside, missed⟩
      · have result : (ListOp.delete p).apply eq (clonedList existing)
            = (clonedList existing).eraseIdx p.toInt.toNat := if_pos ⟨low, high⟩
        have shorter : ((clonedList existing).eraseIdx p.toInt.toNat).length ≤ isizeMax :=
          Nat.le_trans (List.length_eraseIdx_le _ _) len
        rw [outcome_list_fits id result shorter, if_pos inside, Vec.remove, if_pos inside, word]
        rfl
      · have result : (ListOp.delete p).apply eq (clonedList existing)
            = clonedList existing := if_neg outside
        rw [outcome_list_fits id result len, if_neg missed]
        rfl
    | _ => rfl
  | a :: b :: args =>
    cases a with
    | fixInteger s =>
      cases b with
      | fixInteger e =>
        exact deleteRange_eq fits s e
      | _ =>
        change _ = Operation.outcome eq existing .keepList
        rw [Operation.outcome, if_neg (by exact id), if_pos (by exact len)]
        rfl
    | _ => rfl

theorem listInsert_eq (fits : ValueFits existing) (x : EetfTerm) (args : List EetfTerm) :
    listInsert existing (x :: args) = outcomeOf eq existing (Operation.readListInsert args) := by
  have len := clonedList_fits fits
  match args with
  | [] => rfl
  | [a] => cases a <;> rfl
  | a :: b :: args =>
    cases a with
    | fixInteger p =>
      cases b with
      | list ys =>
        change (if asUsize p ≤ (clonedList existing).length then _ else _)
          = Operation.outcome eq existing (.list (.insert p ys))
        rcases position_upto (p := p) len with ⟨low, high, word, inside⟩ | ⟨outside, missed⟩
        · have result : (ListOp.insert p ys).apply eq (clonedList existing) =
              (clonedList existing).take p.toInt.toNat ++ ys ++
                (clonedList existing).drop p.toInt.toNat := if_pos ⟨low, high⟩
          rw [outcome_list id result, Vec.splice_length, if_pos inside,
            Vec.insertEach_eq _ _ ys inside len, word]
          exact checked_vector .list _ _
        · have result : (ListOp.insert p ys).apply eq (clonedList existing)
              = clonedList existing := if_neg outside
          rw [outcome_list_fits id result len, if_neg missed]
          rfl
      | _ => rfl
    | _ => cases b <;> rfl

theorem binaryAppend_eq (x a : EetfTerm) (args : List EetfTerm) :
    binaryAppend existing (x :: a :: args) =
      outcomeOf eq existing (Operation.readBinaryAppend (a :: args)) := by
  cases a with
  | binary ys =>
    have result : (BinaryOp.append ys).apply (clonedBinary existing)
        = clonedBinary existing ++ ys := rfl
    change _ = Operation.outcome eq existing (.binary (.append ys))
    rw [outcome_binary id result, List.length_append]
    exact checked_vector .binary _ _
  | _ => rfl

theorem binaryInsert_eq (fits : ValueFits existing) (x : EetfTerm) (args : List EetfTerm) :
    binaryInsert existing (x :: args) =
      outcomeOf eq existing (Operation.readBinaryInsert args) := by
  have len := clonedBinary_fits fits
  match args with
  | [] => rfl
  | [a] => cases a <;> rfl
  | a :: b :: args =>
    cases a with
    | fixInteger p =>
      cases b with
      | binary ys =>
        change (if asUsize p ≤ (clonedBinary existing).length then _ else _)
          = Operation.outcome eq existing (.binary (.insert p ys))
        rcases position_upto (p := p) len with ⟨low, high, word, inside⟩ | ⟨outside, missed⟩
        · have result : (BinaryOp.insert p ys).apply (clonedBinary existing) =
              (clonedBinary existing).take p.toInt.toNat ++ ys ++
                (clonedBinary existing).drop p.toInt.toNat := if_pos ⟨low, high⟩
          rw [outcome_binary id result, Vec.splice_length, if_pos inside,
            Vec.insertEach_eq _ _ ys inside len, word]
          exact checked_vector .binary _ _
        · have result : (BinaryOp.insert p ys).apply (clonedBinary existing)
              = clonedBinary existing := if_neg outside
          rw [outcome_binary_fits id result len, if_neg missed]
          rfl
      | _ => rfl
    | _ => cases b <;> rfl

/-- Three ways a position and a count can stand to a binary: a stretch of it, an inverted
stretch that passes both bounds, or out of bounds for the code as well. -/
theorem stretch_cases {bs : Bytes} (p n : Int32) (fits : bs.length ≤ isizeMax) :
    (InRange p n bs.length ∧
      (asUsize p ≤ bs.length ∧ usizeAdd (asUsize p) (asUsize n) ≤ bs.length) ∧
      asUsize p = p.toInt.toNat ∧
      usizeAdd (asUsize p) (asUsize n) = (p.toInt + n.toInt).toNat) ∨
    ((n.toInt < 0 ∧ 0 ≤ p.toInt + n.toInt ∧ p.toInt ≤ bs.length) ∧
      (asUsize p ≤ bs.length ∧ usizeAdd (asUsize p) (asUsize n) ≤ bs.length) ∧
      usizeAdd (asUsize p) (asUsize n) < asUsize p) ∨
    (¬ InRange p n bs.length ∧
      ¬ (n.toInt < 0 ∧ 0 ≤ p.toInt + n.toInt ∧ p.toInt ≤ bs.length) ∧
      ¬ (asUsize p ≤ bs.length ∧ usizeAdd (asUsize p) (asUsize n) ≤ bs.length)) := by
  unfold InRange
  by_cases guard : asUsize p ≤ bs.length ∧ usizeAdd (asUsize p) (asUsize n) ≤ bs.length
  · obtain ⟨low, high⟩ := (asUsize_le_iff fits).mp guard.1
    obtain ⟨sumLow, sumHigh⟩ := (usizeAdd_le_iff fits guard.1).mp guard.2
    have word := asUsize_of_nonneg low
    have sum := usizeAdd_toNat fits guard.1 guard.2
    by_cases sign : 0 ≤ n.toInt
    · exact .inl ⟨⟨low, sign, sumHigh⟩, guard, word, by omega⟩
    · exact .inr (.inl ⟨⟨by omega, sumLow, high⟩, guard, by omega⟩)
  · refine .inr (.inr ⟨?_, ?_, guard⟩)
    · rintro ⟨low, sign, sumHigh⟩
      have start := (asUsize_le_iff fits).mpr ⟨low, by omega⟩
      exact guard ⟨start, (usizeAdd_le_iff fits start).mpr ⟨by omega, sumHigh⟩⟩
    · rintro ⟨sign, sumLow, high⟩
      have start := (asUsize_le_iff fits).mpr ⟨by omega, high⟩
      exact guard ⟨start, (usizeAdd_le_iff fits start).mpr ⟨sumLow, by omega⟩⟩

theorem binaryErase_eq (fits : ValueFits existing) (x : EetfTerm) (args : List EetfTerm) :
    binaryErase existing (x :: args) = outcomeOf eq existing (Operation.readBinaryErase args) := by
  have len := clonedBinary_fits fits
  match args with
  | [] => rfl
  | [a] => cases a <;> rfl
  | a :: b :: args =>
    cases a with
    | fixInteger p =>
      cases b with
      | fixInteger n =>
        change (if asUsize p ≤ (clonedBinary existing).length ∧
            usizeAdd (asUsize p) (asUsize n) ≤ (clonedBinary existing).length then _ else _)
          = Operation.outcome eq existing (.binary (.erase p n))
        rcases stretch_cases p n len with
          ⟨range, guard, start, stop⟩ | ⟨inverted, guard, before⟩ | ⟨outside, sane, missed⟩
        · have sane : ¬ (Operation.binary (.erase p n)).Inverted existing :=
            fun inverted => Int.not_lt.mpr range.2.1 inverted.1
          have result : (BinaryOp.erase p n).apply (clonedBinary existing) =
              (clonedBinary existing).take p.toInt.toNat ++
                (clonedBinary existing).drop (p.toInt + n.toInt).toNat := if_pos range
          have shorter : ((clonedBinary existing).take p.toInt.toNat ++
              (clonedBinary existing).drop (p.toInt + n.toInt).toNat).length ≤ isizeMax := by
            have sign := range.2.1
            simp only [List.length_append, List.length_take, List.length_drop]
            omega
          have order : asUsize p ≤ usizeAdd (asUsize p) (asUsize n) ∧
              usizeAdd (asUsize p) (asUsize n) ≤ (clonedBinary existing).length := by
            have sign := range.2.1
            omega
          rw [outcome_binary_fits sane result shorter, if_pos guard, Vec.drain, if_pos order,
            stop, start]
          rfl
        · have bad : (Operation.binary (.erase p n)).Inverted existing := inverted
          have backwards : ¬ (asUsize p ≤ usizeAdd (asUsize p) (asUsize n) ∧
              usizeAdd (asUsize p) (asUsize n) ≤ (clonedBinary existing).length) := by omega
          rw [outcome_inverted bad, if_pos guard, Vec.drain, if_neg backwards]
          rfl
        · have still : ¬ (Operation.binary (.erase p n)).Inverted existing := sane
          have result : (BinaryOp.erase p n).apply (clonedBinary existing)
              = clonedBinary existing := if_neg outside
          rw [outcome_binary_fits still result len, if_neg missed]
          rfl
      | _ => rfl
    | _ => cases b <;> rfl

theorem binaryReplace_eq (fits : ValueFits existing) (x : EetfTerm) (args : List EetfTerm) :
    binaryReplace existing (x :: args) =
      outcomeOf eq existing (Operation.readBinaryReplace args) := by
  have len := clonedBinary_fits fits
  match args with
  | [] => rfl
  | [a] => cases a <;> rfl
  | [a, b] => cases a <;> cases b <;> rfl
  | a :: b :: d :: args =>
    cases a with
    | fixInteger p =>
      cases b with
      | fixInteger n =>
        cases d with
        | binary ys =>
          change (if asUsize p ≤ (clonedBinary existing).length ∧
              usizeAdd (asUsize p) (asUsize n) ≤ (clonedBinary existing).length then _ else _)
            = Operation.outcome eq existing (.binary (.replace p n ys))
          rcases stretch_cases p n len with
            ⟨range, guard, start, stop⟩ | ⟨inverted, guard, before⟩ | ⟨outside, sane, missed⟩
          · have sane : ¬ (Operation.binary (.replace p n ys)).Inverted existing :=
              fun inverted => Int.not_lt.mpr range.2.1 inverted.1
            have result : (BinaryOp.replace p n ys).apply (clonedBinary existing) =
                (clonedBinary existing).take p.toInt.toNat ++ ys ++
                  (clonedBinary existing).drop (p.toInt + n.toInt).toNat := if_pos range
            have order : asUsize p ≤ usizeAdd (asUsize p) (asUsize n) ∧
                usizeAdd (asUsize p) (asUsize n) ≤ (clonedBinary existing).length := by
              have sign := range.2.1
              omega
            have inserted := Vec.insertEach_drained _ _ _ ys order.1 order.2 len
            rw [stop, start] at inserted
            rw [outcome_binary sane result, if_pos guard, Vec.drain, if_pos order, stop, start]
            change (Vec.insertEach _ _ ys >>= fun bytes => pure (some (EetfTerm.binary bytes))) = _
            rw [inserted]
            exact checked_vector .binary _ _
          · have bad : (Operation.binary (.replace p n ys)).Inverted existing := inverted
            have backwards : ¬ (asUsize p ≤ usizeAdd (asUsize p) (asUsize n) ∧
                usizeAdd (asUsize p) (asUsize n) ≤ (clonedBinary existing).length) := by omega
            rw [outcome_inverted bad, if_pos guard, Vec.drain, if_neg backwards]
            rfl
          · have still : ¬ (Operation.binary (.replace p n ys)).Inverted existing := sane
            have result : (BinaryOp.replace p n ys).apply (clonedBinary existing)
                = clonedBinary existing := if_neg outside
            rw [outcome_binary_fits still result len, if_neg missed]
            rfl
        | _ => rfl
      | _ => cases d <;> rfl
    | _ => cases b <;> cases d <;> rfl

end Steps

theorem process_eq (c : Eetf) (existing : Option EetfTerm) (fits : ValueFits existing)
    (operand : EetfTerm) :
    processEetfMergeOperation c existing operand =
      Operation.outcomeOf c.eq existing (Operation.read operand) := by
  cases operand with
  | tuple elements =>
    match elements with
    | [] => rfl
    | [x] =>
      cases x with
      | atom opAtom =>
        simp only [Operation.read, Operation.readArguments]
        split <;> rfl
      | _ => rfl
    | x :: a :: args =>
      cases x with
      | atom opAtom =>
        have arity : (EetfTerm.atom opAtom :: a :: args).length ≥ 2 := by simp
        simp only [processEetfMergeOperation, if_pos arity, Vec.index_zero, bind, Except.bind,
          Operation.read]
        split
        · exact intAdd_eq _ _ _
        · exact listAppend_eq _ _ _
        · exact listPrepend_eq fits _ _ _
        · exact listSubtract_eq c fits _ _ _
        · exact listSet_eq fits _ _
        · exact listDelete_eq fits _ _
        · exact listInsert_eq fits _ _
        · exact binaryAppend_eq _ _ _
        · exact binaryErase_eq fits _ _
        · exact binaryInsert_eq fits _ _
        · exact binaryReplace_eq fits _ _
        · -- none of the eleven atoms
          unfold Operation.readArguments
          split <;> first | rfl | contradiction
      | _ => rfl
  | _ => rfl

end ExRocket
