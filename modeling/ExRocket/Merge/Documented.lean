import ExRocket.Merge.Fallback

/-! The documented operands. Each operation is asked for by one tuple, so a sequence of
encoded operations on a list or a binary folds the reference operations over it. -/
namespace ExRocket

open Rust

def ListOp.toTerm : ListOp → EetfTerm
  | .append ys => .tuple [.atom "list_append", .list ys]
  | .prepend ys => .tuple [.atom "list_prepend", .list ys]
  | .subtract ys => .tuple [.atom "list_subtract", .list ys]
  | .set p v => .tuple [.atom "list_set", .fixInteger p, v]
  | .delete p => .tuple [.atom "list_delete", .fixInteger p]
  | .deleteRange s e => .tuple [.atom "list_delete", .fixInteger s, .fixInteger e]
  | .insert p ys => .tuple [.atom "list_insert", .fixInteger p, .list ys]

def BinaryOp.toTerm : BinaryOp → EetfTerm
  | .append x => .tuple [.atom "binary_append", .binary x]
  | .erase p n => .tuple [.atom "binary_erase", .fixInteger p, .fixInteger n]
  | .insert p x => .tuple [.atom "binary_insert", .fixInteger p, .binary x]
  | .replace p n x => .tuple [.atom "binary_replace", .fixInteger p, .fixInteger n, .binary x]

@[simp] theorem read_listOp (op : ListOp) : Operation.read op.toTerm = some (.list op) := by
  cases op <;> rfl

@[simp] theorem read_binaryOp (op : BinaryOp) : Operation.read op.toTerm = some (.binary op) := by
  cases op <;> rfl

variable {eq : EetfTerm → EetfTerm → Bool}

theorem referenceStep_list (existing : Option EetfTerm) (op : ListOp) :
    referenceStep eq existing op.toTerm = some (.list (op.apply eq (clonedList existing))) := by
  simp [referenceStep, Operation.apply]

theorem referenceStep_binary (existing : Option EetfTerm) (op : BinaryOp) :
    referenceStep eq existing op.toTerm = some (.binary (op.apply (clonedBinary existing))) := by
  simp [referenceStep, Operation.apply]

theorem reference_list (ops : List ListOp) (xs : List EetfTerm) :
    reference eq (some (.list xs)) (ops.map ListOp.toTerm) =
      some (.list (ops.foldl (ListOp.apply eq) xs)) := by
  induction ops generalizing xs with
  | nil => rfl
  | cons op ops ih =>
    rw [List.map_cons, reference_cons, referenceStep_list]
    exact ih _

theorem reference_binary (ops : List BinaryOp) (bs : Bytes) :
    reference eq (some (.binary bs)) (ops.map BinaryOp.toTerm) =
      some (.binary (ops.foldl BinaryOp.apply bs)) := by
  induction ops generalizing bs with
  | nil => rfl
  | cons op ops ih =>
    rw [List.map_cons, reference_cons, referenceStep_binary]
    exact ih _

/-- A first operation makes an absent value a list, whatever it then does to it. -/
theorem reference_list_from {existing : Option EetfTerm} {ops : List ListOp}
    {xs : List EetfTerm} (nonempty : ops ≠ []) (start : clonedList existing = xs) :
    reference eq existing (ops.map ListOp.toTerm) =
      some (.list (ops.foldl (ListOp.apply eq) xs)) := by
  cases ops with
  | nil => exact absurd rfl nonempty
  | cons op ops =>
    subst start
    rw [List.map_cons, reference_cons, referenceStep_list]
    exact reference_list ops _

theorem reference_binary_from {existing : Option EetfTerm} {ops : List BinaryOp}
    {bs : Bytes} (nonempty : ops ≠ []) (start : clonedBinary existing = bs) :
    reference eq existing (ops.map BinaryOp.toTerm) =
      some (.binary (ops.foldl BinaryOp.apply bs)) := by
  cases ops with
  | nil => exact absurd rfl nonempty
  | cons op ops =>
    subst start
    rw [List.map_cons, reference_cons, referenceStep_binary]
    exact reference_binary ops _

section Codec

variable {c : Eetf} {key : Bytes} {e : Option Bytes}

theorem decoded_of_map {operands : List Bytes} {ts : List EetfTerm}
    (encoded : operands.map c.decode = ts.map some) : decoded c operands = ts := by
  have flat : decoded c operands = (operands.map c.decode).filterMap id := by
    rw [List.filterMap_map]
    rfl
  rw [flat, encoded, List.filterMap_map]
  exact List.filterMap_some

theorem erlangMerge_decodes {operands : List Bytes} {out : Option Bytes} {t : EetfTerm}
    (returns : erlangMerge c key e operands = .ok out) (processed : decoded c operands ≠ [])
    (final : referenceMerge c e operands = some t) (roundTrip : c.RoundTrips t) :
    ∃ bytes, out = some bytes ∧ c.decode bytes = some t := by
  have result := erlangMerge_ok returns
  rw [final] at result
  exact ⟨_, result, (settled_term processed roundTrip).2⟩

theorem list_operations_refine {xs : List EetfTerm} {ops : List ListOp} {operands : List Bytes}
    {out : Option Bytes} (lawful : ∀ s t, c.eq s t = true ↔ s = t)
    (base : e = none ∧ xs = [] ∨ e.bind c.decode = some (.list xs))
    (nonempty : ops ≠ [])
    (encoded : operands.map c.decode = ops.map fun op => some op.toTerm)
    (returns : erlangMerge c key e operands = .ok out)
    (roundTrip : c.RoundTrips
      (.list (ops.foldl (ListOp.apply fun s t => decide (s = t)) xs))) :
    ∃ bytes, out = some bytes ∧
      c.decode bytes =
        some (.list (ops.foldl (ListOp.apply fun s t => decide (s = t)) xs)) := by
  have terms : decoded c operands = ops.map ListOp.toTerm :=
    decoded_of_map (by rw [encoded, List.map_map]; rfl)
  have processed : decoded c operands ≠ [] := by
    rw [terms]
    simpa using nonempty
  have equality : c.eq = fun s t => decide (s = t) := by
    funext s t
    exact Bool.eq_iff_iff.mpr ((lawful s t).trans decide_eq_true_iff.symm)
  have start : clonedList (e.bind c.decode) = xs := by
    rcases base with ⟨rfl, rfl⟩ | stored
    · rfl
    · rw [stored]
      rfl
  have final : reference c.eq (e.bind c.decode) (ops.map ListOp.toTerm) =
      some (.list (ops.foldl (ListOp.apply c.eq) xs)) := reference_list_from nonempty start
  rw [← terms] at final
  apply erlangMerge_decodes returns processed _ roundTrip
  rw [referenceMerge, final, equality]

theorem list_operations_refine_two_edits :
    ∃ bytes, some [131, 107, 0, 2, 9, 2] = some bytes ∧
      Wire.codec.decode bytes = some (.list ([.insert 1 [.fixInteger 9], .delete 0].foldl
        (ListOp.apply fun s t => decide (s = t)) [.fixInteger 1, .fixInteger 2])) := by
  have returns : erlangMerge Wire.codec [] (some [131, 107, 0, 2, 1, 2]) [
      [131, 104, 3, 100, 0, 11, 108, 105, 115, 116, 95, 105, 110, 115, 101, 114, 116, 97, 1,
        107, 0, 1, 9],
      [131, 104, 2, 100, 0, 11, 108, 105, 115, 116, 95, 100, 101, 108, 101, 116, 101, 97, 0]] =
    .ok (some [131, 107, 0, 2, 9, 2]) := by decide
  exact list_operations_refine EetfTerm.same_iff (by decide) (by decide) (by decide) returns
    ⟨_, rfl, by decide⟩

theorem replace_eq_erase_insert {p n : Int32} {bs : Bytes} (x : Bytes)
    (range : InRange p n bs.length) :
    (BinaryOp.replace p n x).apply bs =
      (BinaryOp.insert p x).apply ((BinaryOp.erase p n).apply bs) := by
  obtain ⟨start, sign, stop⟩ := range
  have front : (bs.take p.toInt.toNat).length = p.toInt.toNat :=
    List.length_take_of_le (by omega)
  have inside : 0 ≤ p.toInt ∧
      p.toInt ≤ (bs.take p.toInt.toNat ++ bs.drop (p.toInt + n.toInt).toNat).length := by
    rw [List.length_append, front]
    omega
  simp only [BinaryOp.apply, if_pos (show InRange p n bs.length from ⟨start, sign, stop⟩),
    if_pos inside, List.take_left' front, List.drop_left' front]

/-- The code too: with the range in bounds the two sequences run alike, errors included. -/
theorem replace_run (current : Option EetfTerm) (fits : ValueFits current) {p n : Int32}
    (x : Bytes) (range : InRange p n (clonedBinary current).length) (ts : List EetfTerm) :
    runOperands c current ((BinaryOp.replace p n x).toTerm :: ts) =
      runOperands c current
        ((BinaryOp.erase p n).toTerm :: (BinaryOp.insert p x).toTerm :: ts) := by
  have len := clonedBinary_fits fits
  have forward : ∀ op : BinaryOp, op = .erase p n ∨ op = .replace p n x →
      ¬ (Operation.binary op).Inverted current := by
    rintro op (rfl | rfl) inverted
    · exact Int.not_lt.mpr range.2.1 inverted.1
    · exact Int.not_lt.mpr range.2.1 inverted.1
  have cut : ((BinaryOp.erase p n).apply (clonedBinary current)).length ≤ isizeMax := by
    have sign := range.2.1
    rw [BinaryOp.apply, if_pos range, List.length_append, List.length_take, List.length_drop]
    omega
  have erased : (Operation.binary (.erase p n)).outcome c.eq current =
      .ok (some (.binary ((BinaryOp.erase p n).apply (clonedBinary current)))) :=
    Operation.outcome_binary_fits (forward _ (.inl rfl)) rfl cut
  have inserted : (Operation.binary (.insert p x)).outcome c.eq
        (some (.binary ((BinaryOp.erase p n).apply (clonedBinary current)))) = _ :=
    Operation.outcome_binary id (replace_eq_erase_insert x range).symm
  have replaced : (Operation.binary (.replace p n x)).outcome c.eq current = _ :=
    Operation.outcome_binary (forward _ (.inr rfl)) rfl
  simp only [runOperands, process_eq c current fits, read_binaryOp, Operation.outcomeOf, erased,
    replaced, bind, Except.bind]
  simp only [process_eq c _ (valueFits_some (show (EetfTerm.binary _).Fits from cut)),
    read_binaryOp, Operation.outcomeOf, inserted]

theorem replace_merges_as_erase_insert {before after : List Bytes} {r d i : Bytes} {p n : Int32}
    {x : Bytes} (replaces : c.decode r = some (BinaryOp.replace p n x).toTerm)
    (erases : c.decode d = some (BinaryOp.erase p n).toTerm)
    (inserts : c.decode i = some (BinaryOp.insert p x).toTerm)
    (range : InRange p n (clonedBinary (referenceMerge c e before)).length) :
    erlangMerge c key e (before ++ [r] ++ after) =
      erlangMerge c key e (before ++ [d, i] ++ after) := by
  have one : decoded c (before ++ [r] ++ after) =
      decoded c before ++ ((BinaryOp.replace p n x).toTerm :: decoded c after) := by
    simp [decoded, replaces]
  have two : decoded c (before ++ [d, i] ++ after) = decoded c before ++
      ((BinaryOp.erase p n).toTerm :: (BinaryOp.insert p x).toTerm :: decoded c after) := by
    simp [decoded, erases, inserts]
  have sums : stringSum e (before ++ [r] ++ after) = stringSum e (before ++ [d, i] ++ after) := by
    simp [stringSum, sum_operands, addOperand_eq, counted_of_decoded replaces,
      counted_of_decoded erases, counted_of_decoded inserts]
  have runs : runOperands c (e.bind c.decode) (decoded c (before ++ [r] ++ after)) =
      runOperands c (e.bind c.decode) (decoded c (before ++ [d, i] ++ after)) := by
    rw [one, two, runOperands_append, runOperands_append]
    cases h : runOperands c (e.bind c.decode) (decoded c before) with
    | error p => rfl
    | ok mid =>
      obtain ⟨same, fits⟩ := run_ok (base_fits c e) h
      rw [referenceMerge, ← same] at range
      exact replace_run mid fits x range _
  have settle : settled c e (before ++ [r] ++ after) = settled c e (before ++ [d, i] ++ after) := by
    funext final
    rw [settled, settled, sums, one, two]
    simp
  rw [erlangMerge_eq, erlangMerge_eq, runs, settle]

theorem binary_operations_refine {bs : Bytes} {ops : List BinaryOp} {operands : List Bytes}
    {out : Option Bytes}
    (base : e = none ∧ bs = [] ∨ e.bind c.decode = some (.binary bs))
    (nonempty : ops ≠ [])
    (encoded : operands.map c.decode = ops.map fun op => some op.toTerm)
    (returns : erlangMerge c key e operands = .ok out)
    (roundTrip : c.RoundTrips (.binary (ops.foldl BinaryOp.apply bs))) :
    (∃ bytes, out = some bytes ∧
      c.decode bytes = some (.binary (ops.foldl BinaryOp.apply bs))) ∧
    ∀ (before after : List Bytes) (r d i : Bytes) (p n : Int32) (x : Bytes),
      c.decode r = some (BinaryOp.replace p n x).toTerm →
      c.decode d = some (BinaryOp.erase p n).toTerm →
      c.decode i = some (BinaryOp.insert p x).toTerm →
      InRange p n (clonedBinary (referenceMerge c e before)).length →
      erlangMerge c key e (before ++ [r] ++ after) =
        erlangMerge c key e (before ++ [d, i] ++ after) := by
  constructor
  · have terms : decoded c operands = ops.map BinaryOp.toTerm :=
      decoded_of_map (by rw [encoded, List.map_map]; rfl)
    have processed : decoded c operands ≠ [] := by
      rw [terms]
      simpa using nonempty
    have start : clonedBinary (e.bind c.decode) = bs := by
      rcases base with ⟨rfl, rfl⟩ | stored
      · rfl
      · rw [stored]
        rfl
    apply erlangMerge_decodes returns processed _ roundTrip
    rw [referenceMerge, terms]
    exact reference_binary_from nonempty start
  · intro before after r d i p n x replaces erases inserts range
    exact replace_merges_as_erase_insert replaces erases inserts range

theorem binary_operations_refine_one_replace :
    (∃ bytes, some [131, 109, 0, 0, 0, 4, 1, 9, 9, 3] = some bytes ∧
      Wire.codec.decode bytes =
        some (.binary ([.replace 1 1 [9, 9]].foldl BinaryOp.apply [1, 2, 3]))) ∧
    ∀ (before after : List Bytes) (r d i : Bytes) (p n : Int32) (x : Bytes),
      Wire.codec.decode r = some (BinaryOp.replace p n x).toTerm →
      Wire.codec.decode d = some (BinaryOp.erase p n).toTerm →
      Wire.codec.decode i = some (BinaryOp.insert p x).toTerm →
      InRange p n (clonedBinary
        (referenceMerge Wire.codec (some [131, 109, 0, 0, 0, 3, 1, 2, 3]) before)).length →
      erlangMerge Wire.codec [] (some [131, 109, 0, 0, 0, 3, 1, 2, 3]) (before ++ [r] ++ after) =
        erlangMerge Wire.codec [] (some [131, 109, 0, 0, 0, 3, 1, 2, 3])
          (before ++ [d, i] ++ after) := by
  have returns : erlangMerge Wire.codec [] (some [131, 109, 0, 0, 0, 3, 1, 2, 3]) [
      [131, 104, 4, 100, 0, 14, 98, 105, 110, 97, 114, 121, 95, 114, 101, 112, 108, 97, 99, 101,
        97, 1, 97, 1, 109, 0, 0, 0, 2, 9, 9]] =
    .ok (some [131, 109, 0, 0, 0, 4, 1, 9, 9, 3]) := by decide
  exact binary_operations_refine (by decide) (by decide) (by decide) returns ⟨_, rfl, by decide⟩

end Codec
end ExRocket
