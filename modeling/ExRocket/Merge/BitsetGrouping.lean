import ExRocket.Merge.Bitset

/-! Partial merges of bitset operands. The bit vector of a run becomes an operand and is
read as text again, so the run is replaced by whatever single action its bytes spell. -/
namespace ExRocket

open Rust LastWriter

/-- The bit vector that actions build from nothing. -/
def image (acts : List BitAction) : Bytes :=
  ofBits (extents bitReach acts 0) fun n => cells false n acts false

theorem bitsetMerge_none (key : Bytes) (r : List Bytes) :
    bitsetMerge key none r = .ok (some (image (r.map readAction))) := by
  obtain ⟨final, returns, length, bits⟩ := bitsetMerge_eq key none r
  have start : ∀ n, bitAt (Option.getD none []) n = false := fun n => bitAt_past (Nat.zero_le _)
  have value : ∀ n, bitAt final n = cells false n (r.map readAction) false := by
    intro n
    rw [bits, start]
  have inside : ∀ m, cells false m (r.map readAction) false = true → m / 8 < final.length := by
    intro m hit
    rw [← value] at hit
    by_contra outside
    rw [bitAt_past (Nat.not_lt.mp outside)] at hit
    cases hit
  have same : final = image (r.map readAction) := by
    apply bits_ext
    · rw [image, ofBits_length, length]
      rfl
    · intro n
      rw [value, image, bitAt_ofBits]
      rw [length] at inside
      exact inside
  rw [returns, same]

/-- The operands before, in and after a run, over a base. With q the one action that the
bit vector of r spells: each bit that b leaves alone ends up the same under q as under r,
and so does the length, up to what b reaches. A clear in b makes up for everything. -/
def RunHarmless (base : Bytes) (a r b : List BitAction) : Prop :=
  let q := readAction (image r)
  (.clear ∈ b ∨
    extents bitReach (a ++ [q]) base.length ⊔ reach bitReach b =
      extents bitReach (a ++ r) base.length ⊔ reach bitReach b) ∧
  ∀ n, (∃ act ∈ b, act.Decides n) ∨
    cells false n (a ++ [q]) (bitAt base n) = cells false n (a ++ r) (bitAt base n)

theorem bitset_partial_iff (key : Bytes) (e : Option Bytes) (a r b : List Bytes) :
    ∃ p grouped whole,
      bitsetMerge key none r = .ok (some p) ∧
      bitsetMerge key e (a ++ [p] ++ b) = .ok (some grouped) ∧
      bitsetMerge key e (a ++ r ++ b) = .ok (some whole) ∧
      (grouped = whole ↔
        RunHarmless (e.getD []) (a.map readAction) (r.map readAction) (b.map readAction)) := by
  obtain ⟨grouped, regrouped, lengthGrouped, bitsGrouped⟩ :=
    bitsetMerge_eq key e (a ++ [image (r.map readAction)] ++ b)
  obtain ⟨whole, once, lengthWhole, bitsWhole⟩ := bitsetMerge_eq key e (a ++ r ++ b)
  refine ⟨_, grouped, whole, bitsetMerge_none key r, regrouped, once, ?_⟩
  rw [bits_eq_iff, lengthGrouped, lengthWhole]
  simp only [bitsGrouped, bitsWhole, List.map_append, extents_append, cells_append,
    RunHarmless, List.map_cons, List.map_nil]
  rw [extents_eq_iff]
  simp only [cells_eq_iff]

/- Setting bits 1 and 2 of an absent bitset: the partial result is the byte 6, which is no
text of an action. -/
theorem bitset_partial_loses_bits :
    ∃ p grouped whole,
      bitsetMerge [] none [[43, 49], [43, 50]] = .ok (some p) ∧
      bitsetMerge [] none ([] ++ [p] ++ []) = .ok (some grouped) ∧
      bitsetMerge [] none ([] ++ [[43, 49], [43, 50]] ++ []) = .ok (some whole) ∧
      grouped ≠ whole :=
  ⟨[6], [], [6], by decide, by decide, by decide, by decide⟩

end ExRocket
