import ExRocket.Merge.BitsetGrouping
import ExRocket.Merge.Documented

/-! When the merge operators return. The string and the bitset operators always do. The
term operator checks the two ends of a range apart from each other, so an inverted range
that is in bounds at both ends reaches drain and panics there. -/
namespace ExRocket

open Rust

theorem erlangMerge_returns_iff {c : Eetf} {key : Bytes} {e : Option Bytes} {ops : List Bytes}
    (memory : erlangMerge c key e ops ≠ .error .capacity) :
    (∃ out, erlangMerge c key e ops = .ok (some out)) ↔
      NoInverted c.eq (e.bind c.decode) (decoded c ops) := by
  rw [erlangMerge_eq] at memory ⊢
  have run : runOperands c (e.bind c.decode) (decoded c ops) ≠ .error .capacity := by
    intro full
    rw [full] at memory
    exact memory rfl
  refine Iff.trans ?_ (run_returns_iff (base_fits c e) run)
  cases runOperands c (e.bind c.decode) (decoded c ops) with
  | error p =>
    constructor
    · rintro ⟨out, impossible⟩
      cases impossible
    · rintro ⟨final, impossible⟩
      cases impossible
  | ok final => exact ⟨fun _ => ⟨final, rfl⟩, fun _ => ⟨_, rfl⟩⟩

theorem merges_return_iff (c : Eetf) (key : Bytes) (e : Option Bytes) (ops : List Bytes)
    (memory : erlangMerge c key e ops ≠ .error .capacity) :
    (∃ out, counterMerge key e ops = some out) ∧
    (∃ out, bitsetMerge key e ops = .ok (some out)) ∧
    ((∃ out, erlangMerge c key e ops = .ok (some out)) ↔
      NoInverted c.eq (e.bind c.decode) (decoded c ops)) := by
  refine ⟨⟨_, rfl⟩, ?_, erlangMerge_returns_iff memory⟩
  obtain ⟨final, returns, _⟩ := bitsetMerge_eq key e ops
  exact ⟨final, returns⟩

/- The external forms of the list [1, 2, 3] and of {list_delete, 2, 1}. -/
def oneTwoThree : Bytes := [131, 107, 0, 3, 1, 2, 3]
def deleteTwoToOne : Bytes :=
  [131, 104, 3, 100, 0, 11, 108, 105, 115, 116, 95, 100, 101, 108, 101, 116, 101, 97, 2, 97, 1]

theorem merges_return_iff_inverted_delete :
    (∃ out, counterMerge [] (some oneTwoThree) [deleteTwoToOne] = some out) ∧
    (∃ out, bitsetMerge [] (some oneTwoThree) [deleteTwoToOne] = .ok (some out)) ∧
    ((∃ out, erlangMerge Wire.codec [] (some oneTwoThree) [deleteTwoToOne] = .ok (some out)) ↔
      NoInverted Wire.codec.eq (Option.bind (some oneTwoThree) Wire.codec.decode)
        (decoded Wire.codec [deleteTwoToOne])) :=
  merges_return_iff Wire.codec [] (some oneTwoThree) [deleteTwoToOne] (by decide)

/- The start 2 and the end 1 are both within the three elements. -/
theorem inverted_delete_panics :
    Wire.codec.decode oneTwoThree =
      some (.list [.fixInteger 1, .fixInteger 2, .fixInteger 3]) ∧
    Wire.codec.decode deleteTwoToOne = some (ListOp.deleteRange 2 1).toTerm ∧
    erlangMerge Wire.codec [] (some oneTwoThree) [deleteTwoToOne] = .error .drain := by
  decide

end ExRocket
