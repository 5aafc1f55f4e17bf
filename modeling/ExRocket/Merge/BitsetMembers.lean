import ExRocket.Merge.Bitset

/-! The bitset operator as a set of positions. The last operand that is about a position
decides whether it is a member; the length is what the latest clear left and the later
writes need. -/
namespace ExRocket

open Rust LastWriter

/-- The set that a byte string stands for; positions past its end are not in it. -/
def members (bytes : Bytes) : Set Nat := {p | bitAt bytes p = true}

theorem cell_member {act : BitAction} {p : Nat} (decides : act.Decides p) (x : Bool) :
    act.cell false p x = true ↔ act = .write p true := by
  cases act with
  | clear => simp [Action.cell]
  | write n v =>
    have same : n = p := decides
    simp [Action.cell, same]
  | skip => cases decides

theorem cells_member (acts : List BitAction) (p : Nat) (x : Bool) :
    cells false p acts x = true ↔
      lastDecision p acts = some (.write p true) ∨ lastDecision p acts = none ∧ x = true := by
  rw [cells_eq_last]
  cases last : lastDecision p acts with
  | none => simp
  | some act => simp [cell_member (lastDecision_decides last)]

/-- Only setting a bit needs a byte, so the length is the largest that a set bit needs or
the length that is there without one. -/
theorem bitset_length_isGreatest (acts : List BitAction) (length : Nat) :
    IsGreatest (insert (if .clear ∈ acts then 0 else length)
      {m | ∃ n, .write n true ∈ sinceClear acts ∧ m = n / 8 + 1})
      (extents bitReach acts length) := by
  obtain ⟨attained, bounds⟩ := extents_isGreatest bitReach acts length
  have start := bounds (.inl rfl)
  have flat : extents bitReach acts length = 0 →
      extents bitReach acts length = if .clear ∈ acts then 0 else length := by
    intro zero
    rw [zero] at start ⊢
    exact (Nat.le_zero.mp start).symm
  constructor
  · rcases attained with same | ⟨act, member, value⟩
    · exact .inl same
    · cases act with
      | write n v =>
        cases v with
        | true => exact .inr ⟨n, member, value⟩
        | false => exact .inl (flat value)
      | clear | skip => exact .inl (flat value)
  · rintro m (same | ⟨n, member, rfl⟩)
    · exact bounds (.inl same)
    · exact bounds (.inr ⟨_, member, rfl⟩)

theorem bitsetMerge_swap (key : Bytes) (e : Option Bytes) {o o' : Bytes} {n m : Nat} {v w : Bool}
    (first : readAction o = .write n v) (second : readAction o' = .write m w) (apart : n ≠ m)
    (before after : List Bytes) :
    bitsetMerge key e (before ++ [o, o'] ++ after) =
      bitsetMerge key e (before ++ [o', o] ++ after) := by
  obtain ⟨final, returns, length, bits⟩ := bitsetMerge_eq key e (before ++ [o, o'] ++ after)
  obtain ⟨final', returns', length', bits'⟩ := bitsetMerge_eq key e (before ++ [o', o] ++ after)
  have same : final = final' := by
    apply bits_ext
    · rw [length, length']
      simp only [List.map_append, List.map_cons, List.map_nil, first, second]
      exact extents_swap bitReach n m v w _ _ _
    · intro k
      rw [bits, bits']
      simp only [List.map_append, List.map_cons, List.map_nil, first, second]
      exact cells_swap false k v w apart _ _ _
  rw [returns, returns', same]

/-- Members, length and order of operands. -/
theorem bitset_last_writer_wins (key : Bytes) (e : Option Bytes) (operands : List Bytes) :
    (∃ final, bitsetMerge key e operands = .ok (some final) ∧
      (∀ p, p ∈ members final ↔
        lastDecision p (operands.map readAction) = some (.write p true) ∨
          lastDecision p (operands.map readAction) = none ∧ p ∈ members (e.getD [])) ∧
      IsGreatest
        (insert (if .clear ∈ operands.map readAction then 0 else (e.getD []).length)
          {m | ∃ n, .write n true ∈ sinceClear (operands.map readAction) ∧ m = n / 8 + 1})
        final.length) ∧
    ∀ before o o' after n m v w, operands = before ++ [o, o'] ++ after →
      readAction o = .write n v → readAction o' = .write m w → n ≠ m →
      bitsetMerge key e operands = bitsetMerge key e (before ++ [o', o] ++ after) := by
  obtain ⟨final, returns, length, bits⟩ := bitsetMerge_eq key e operands
  refine ⟨⟨final, returns, ?_, ?_⟩, ?_⟩
  · intro p
    have bit : p ∈ members final ↔ cells false p (operands.map readAction)
        (bitAt (e.getD []) p) = true := by
      rw [← bits]
      exact Iff.rfl
    exact bit.trans (cells_member _ p _)
  · rw [length]
    exact bitset_length_isGreatest _ _
  · rintro before o o' after n m v w rfl first second apart
    exact bitsetMerge_swap key e first second apart before after

end ExRocket
