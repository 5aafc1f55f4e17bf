import ExRocket.Library.LastWriter
import ExRocket.Rust.Bits
import ExRocket.Rust.Text
import Mathlib.Order.Lattice.Nat

/-! The bitset operator. Each operand is text that clears the set, sets a bit, clears a bit
or does nothing, and the loop is a run of such actions over a growing byte vector. -/
namespace ExRocket

open Rust

def expand (bitset : Bytes) (byteIndex : Nat) : Outcome Bytes :=
  if byteIndex ≥ bitset.length then Vec.resize bitset (byteIndex + 1) 0 else return bitset

def setBit (bitset : Bytes) (pos : Nat) : Outcome Bytes := do
  let byteIndex := pos / 8
  let bitIndex := pos % 8
  let bitset ← expand bitset byteIndex
  let byte ← Vec.index bitset byteIndex
  Vec.set bitset byteIndex (byte ||| mask bitIndex)

def clearBit (bitset : Bytes) (pos : Nat) : Outcome Bytes := do
  let byteIndex := pos / 8
  let bitIndex := pos % 8
  if byteIndex < bitset.length then
    let byte ← Vec.index bitset byteIndex
    Vec.set bitset byteIndex (byte &&& ~~~mask bitIndex)
  else return bitset

/-- The loop body. A sign that is not followed by a usize does nothing. -/
def bitsetOperand (bitset : Bytes) (operandBytes : Bytes) : Outcome Bytes :=
  match fromUtf8 operandBytes with
  | some operandStr =>
    match trim operandStr with
    | [] => return []
    | '+' :: rest =>
      match parseUsize rest with
      | some pos => setBit bitset pos
      | none => return bitset
    | '-' :: rest =>
      match parseUsize rest with
      | some pos => clearBit bitset pos
      | none => return bitset
    | _ => return bitset
  | none => return bitset

def bitsetMerge (_key : Bytes) (existingVal : Option Bytes) (operands : List Bytes) :
    Outcome (Option Bytes) := do
  let bitset := existingVal.getD []
  let bitset ← operands.foldlM bitsetOperand bitset
  return some bitset

abbrev BitAction := LastWriter.Action Nat Bool

/-- What an operand asks for, whatever the bitset is. -/
def readAction (operandBytes : Bytes) : BitAction :=
  match fromUtf8 operandBytes with
  | some operandStr =>
    match trim operandStr with
    | [] => .clear
    | '+' :: rest => (parseUsize rest).elim .skip fun pos => .write pos true
    | '-' :: rest => (parseUsize rest).elim .skip fun pos => .write pos false
    | _ => .skip
  | none => .skip

/-- Setting a bit makes the vector reach its byte; clearing one never grows it. -/
def bitReach (n : Nat) (v : Bool) : Nat := if v then n / 8 + 1 else 0

/-- The bitset after an action, by its length and its bits. -/
def Acts (bitset : Bytes) (act : BitAction) (next : Bytes) : Prop :=
  next.length = act.extent bitReach bitset.length ∧
    ∀ n, bitAt next n = act.cell false n (bitAt bitset n)

theorem parseUsize_lt {s : Str} {n : Nat} (parsed : parseUsize s = some n) : n < usizeSize := by
  unfold parseUsize at parsed
  obtain ⟨m, _, bounded⟩ := Option.bind_eq_some_iff.mp parsed
  split at bounded
  · cases bounded
    assumption
  · cases bounded

/-- A position that is a usize is never out of capacity, and its byte is there afterwards. -/
theorem expand_eq (bitset : Bytes) {pos : Nat} (word : pos < usizeSize) :
    ∃ grown, expand bitset (pos / 8) = .ok grown ∧
      grown.length = max bitset.length (pos / 8 + 1) ∧
      ∀ n, bitAt grown n = bitAt bitset n := by
  have fits : pos / 8 + 1 ≤ isizeMax := by
    unfold usizeSize at word
    unfold isizeMax
    omega
  by_cases past : pos / 8 ≥ bitset.length
  · refine ⟨bitset ++ List.replicate (pos / 8 + 1 - bitset.length) 0, ?_, ?_, ?_⟩
    · rw [expand, if_pos past, Vec.resize, if_pos fits, List.take_of_length_le (by omega)]
    · simp only [List.length_append, List.length_replicate]
      omega
    · exact bitAt_grown bitset _
  · exact ⟨bitset, if_neg past, by omega, fun n => rfl⟩

theorem setBit_acts (bitset : Bytes) {pos : Nat} (word : pos < usizeSize) :
    ∃ next, setBit bitset pos = .ok next ∧ Acts bitset (.write pos true) next := by
  obtain ⟨grown, expanded, reached, kept⟩ := expand_eq bitset word
  have inside : pos / 8 < grown.length := by omega
  refine ⟨grown.set (pos / 8) (grown[pos / 8] ||| mask (pos % 8)), ?_, ?_, ?_⟩
  · simp only [setBit, expanded, bind, Except.bind, Vec.index_lt inside, Vec.set, if_pos inside]
  · rw [List.length_set, reached]
    rfl
  · intro n
    rw [LastWriter.Action.cell, ← kept n]
    exact bitAt_patch true inside
      (fun m _ => testBit_set _ (Nat.mod_lt _ (by decide)) m) n

theorem clearBit_acts (bitset : Bytes) (pos : Nat) :
    ∃ next, clearBit bitset pos = .ok next ∧ Acts bitset (.write pos false) next := by
  by_cases inside : pos / 8 < bitset.length
  · refine ⟨bitset.set (pos / 8) (bitset[pos / 8] &&& ~~~mask (pos % 8)), ?_, ?_, ?_⟩
    · simp only [clearBit, if_pos inside, bind, Except.bind, Vec.index_lt inside, Vec.set]
    · rw [List.length_set]
      exact (Nat.max_zero _).symm
    · exact bitAt_patch false inside
        (fun m small => testBit_clear _ (Nat.mod_lt _ (by decide)) small)
  · refine ⟨bitset, if_neg inside, (Nat.max_zero _).symm, ?_⟩
    intro n
    rw [LastWriter.Action.cell]
    split
    · rename_i same
      subst same
      exact bitAt_past (Nat.not_lt.mp inside)
    · rfl

theorem acts_clear (bitset : Bytes) : Acts bitset .clear [] :=
  ⟨rfl, fun _ => Nat.zero_testBit _⟩

theorem acts_skip (bitset : Bytes) : Acts bitset .skip bitset :=
  ⟨rfl, fun _ => rfl⟩

theorem bitsetOperand_acts (bitset operandBytes : Bytes) :
    ∃ next, bitsetOperand bitset operandBytes = .ok next ∧
      Acts bitset (readAction operandBytes) next := by
  unfold bitsetOperand readAction
  split
  · split
    · exact ⟨[], rfl, acts_clear bitset⟩
    · rename_i rest _
      cases parsed : parseUsize rest with
      | some pos => exact setBit_acts bitset (parseUsize_lt parsed)
      | none => exact ⟨bitset, rfl, acts_skip bitset⟩
    · rename_i rest _
      cases parsed : parseUsize rest with
      | some pos => exact clearBit_acts bitset pos
      | none => exact ⟨bitset, rfl, acts_skip bitset⟩
    · exact ⟨bitset, rfl, acts_skip bitset⟩
  · exact ⟨bitset, rfl, acts_skip bitset⟩

/-- The run of the loop: it never panics, and length and bits follow the actions. -/
theorem bitsetRun_acts (operands : List Bytes) (bitset : Bytes) :
    ∃ final, operands.foldlM bitsetOperand bitset = .ok final ∧
      final.length = LastWriter.extents bitReach (operands.map readAction) bitset.length ∧
      ∀ n, bitAt final n = LastWriter.cells false n (operands.map readAction) (bitAt bitset n) := by
  induction operands generalizing bitset with
  | nil => exact ⟨bitset, rfl, rfl, fun _ => rfl⟩
  | cons op ops ih =>
    obtain ⟨next, step, length, bits⟩ := bitsetOperand_acts bitset op
    obtain ⟨final, run, lengths, rest⟩ := ih next
    refine ⟨final, ?_, ?_, ?_⟩
    · rw [List.foldlM_cons, step]
      exact run
    · rw [lengths, length]
      rfl
    · intro n
      rw [rest, bits]
      rfl

theorem bitsetMerge_eq (key : Bytes) (e : Option Bytes) (operands : List Bytes) :
    ∃ final, bitsetMerge key e operands = .ok (some final) ∧
      final.length = LastWriter.extents bitReach (operands.map readAction) (e.getD []).length ∧
      ∀ n, bitAt final n =
        LastWriter.cells false n (operands.map readAction) (bitAt (e.getD []) n) := by
  obtain ⟨final, run, length, bits⟩ := bitsetRun_acts operands (e.getD [])
  refine ⟨final, ?_, length, bits⟩
  rw [bitsetMerge, run]
  rfl

end ExRocket
