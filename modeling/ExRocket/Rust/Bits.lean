import Mathlib.Data.Nat.Init
import ExRocket.Rust.Vec

/-! Byte vectors as bit vectors: bit n is bit n % 8 of byte n / 8, and the bits past the
end are 0. A byte vector is its length and its bits. -/
namespace Rust

def bitAt (bytes : Bytes) (n : Nat) : Bool := (bytes.getD (n / 8) 0).toNat.testBit (n % 8)

/-- The byte vector of a length and a set of positions. -/
def ofBits (len : Nat) (member : Nat → Bool) : Bytes :=
  (List.range len).map fun i => UInt8.ofNat (Nat.ofBits fun k : Fin 8 => member (8 * i + k))

/-- `1 << bit_index` as a u8 -/
def mask (bitIndex : Nat) : UInt8 := 1 <<< UInt8.ofNat bitIndex

theorem mask_toNat {k : Nat} (h : k < 8) : (mask k).toNat = 2 ^ k := by
  have table : ∀ k : Fin 8, (mask k).toNat = 2 ^ k.val := by decide
  exact table ⟨k, h⟩

theorem testBit_set (byte : UInt8) {k : Nat} (h : k < 8) (m : Nat) :
    (byte ||| mask k).toNat.testBit m = if k = m then true else byte.toNat.testBit m := by
  rw [UInt8.toNat_or, Nat.testBit_or, mask_toNat h, Nat.testBit_two_pow]
  by_cases same : k = m <;> simp [same]

theorem testBit_clear (byte : UInt8) {k : Nat} (h : k < 8) {m : Nat} (hm : m < 8) :
    (byte &&& ~~~mask k).toNat.testBit m = if k = m then false else byte.toNat.testBit m := by
  have small : 2 ^ k < 2 ^ 8 := Nat.pow_lt_pow_right (by decide) h
  have flipped : UInt8.size - 1 - (mask k).toNat = 2 ^ 8 - (2 ^ k + 1) := by
    change 2 ^ 8 - 1 - (mask k).toNat = _
    rw [mask_toNat h, Nat.sub_sub, Nat.add_comm]
  rw [UInt8.toNat_and, Nat.testBit_and, UInt8.toNat_not, flipped,
    Nat.testBit_two_pow_sub_succ small, Nat.testBit_two_pow]
  by_cases same : k = m <;> simp [same, hm]

theorem bitAt_past {bytes : Bytes} {n : Nat} (h : bytes.length ≤ n / 8) :
    bitAt bytes n = false := by
  rw [bitAt, List.getD_eq_getElem?_getD, List.getElem?_eq_none h]
  exact Nat.zero_testBit _

theorem bitAt_byte {bytes : Bytes} {i k : Nat} (h : i < bytes.length) (hk : k < 8) :
    bitAt bytes (8 * i + k) = bytes[i].toNat.testBit k := by
  have quotient : (8 * i + k) / 8 = i := by omega
  have remainder : (8 * i + k) % 8 = k := by omega
  rw [bitAt, quotient, remainder, List.getD_eq_getElem?_getD, List.getElem?_eq_getElem h,
    Option.getD_some]

theorem byte_ext {a b : UInt8} (bits : ∀ k < 8, a.toNat.testBit k = b.toNat.testBit k) :
    a = b := by
  apply UInt8.toNat_inj.mp
  apply Nat.eq_of_testBit_eq
  intro k
  by_cases hk : k < 8
  · exact bits k hk
  · have wide : 2 ^ 8 ≤ 2 ^ k := Nat.pow_le_pow_right (by decide) (Nat.not_lt.mp hk)
    rw [Nat.testBit_lt_two_pow (Nat.lt_of_lt_of_le a.toNat_lt wide),
      Nat.testBit_lt_two_pow (Nat.lt_of_lt_of_le b.toNat_lt wide)]

theorem bits_ext {xs ys : Bytes} (length : xs.length = ys.length)
    (bits : ∀ n, bitAt xs n = bitAt ys n) : xs = ys := by
  apply List.ext_getElem length
  intro i hx hy
  apply byte_ext
  intro k hk
  rw [← bitAt_byte hx hk, ← bitAt_byte hy hk]
  exact bits _

theorem bits_eq_iff {xs ys : Bytes} :
    xs = ys ↔ xs.length = ys.length ∧ ∀ n, bitAt xs n = bitAt ys n := by
  constructor
  · rintro rfl
    exact ⟨rfl, fun n => rfl⟩
  · exact fun ⟨length, bits⟩ => bits_ext length bits

theorem bitAt_set {bytes : Bytes} {i : Nat} {byte : UInt8} (inside : i < bytes.length) (n : Nat) :
    bitAt (bytes.set i byte) n =
      if i = n / 8 then byte.toNat.testBit (n % 8) else bitAt bytes n := by
  rw [bitAt, bitAt, List.getD_eq_getElem?_getD, List.getD_eq_getElem?_getD, List.getElem?_set]
  by_cases here : i = n / 8
  · subst here
    simp [inside]
  · simp [here]

theorem bitAt_patch {bytes : Bytes} {pos : Nat} {byte : UInt8} (v : Bool)
    (inside : pos / 8 < bytes.length)
    (patched : ∀ m < 8, byte.toNat.testBit m =
      if pos % 8 = m then v else bytes[pos / 8].toNat.testBit m) (n : Nat) :
    bitAt (bytes.set (pos / 8) byte) n = if pos = n then v else bitAt bytes n := by
  have small : n % 8 < 8 := Nat.mod_lt n (by decide)
  rw [bitAt_set inside]
  by_cases sameByte : pos / 8 = n / 8
  · have old := bitAt_byte inside small
    have whole : 8 * (pos / 8) + n % 8 = n := by omega
    rw [whole] at old
    rw [if_pos sameByte, patched _ small, ← old]
    by_cases sameBit : pos % 8 = n % 8
    · have same : pos = n := by omega
      rw [if_pos sameBit, if_pos same]
    · have other : pos ≠ n := fun same => sameBit (congrArg (· % 8) same)
      rw [if_neg sameBit, if_neg other]
  · have other : pos ≠ n := fun same => sameByte (congrArg (· / 8) same)
    rw [if_neg sameByte, if_neg other]

theorem bitAt_grown (bytes : Bytes) (k n : Nat) :
    bitAt (bytes ++ List.replicate k 0) n = bitAt bytes n := by
  rw [bitAt, bitAt, List.getD_eq_getElem?_getD, List.getD_eq_getElem?_getD, List.getElem?_append]
  split
  · rfl
  · rename_i past
    rw [List.getElem?_eq_none (Nat.not_lt.mp past), List.getElem?_replicate]
    split <;> rfl

@[simp] theorem ofBits_length (len : Nat) (member : Nat → Bool) :
    (ofBits len member).length = len := by
  simp [ofBits]

theorem bitAt_ofBits {len : Nat} {member : Nat → Bool} (n : Nat)
    (inside : ∀ m, member m = true → m / 8 < len) :
    bitAt (ofBits len member) n = member n := by
  by_cases h : n / 8 < len
  · have split : 8 * (n / 8) + n % 8 = n := Nat.div_add_mod n 8
    have small : n % 8 < 8 := Nat.mod_lt n (by decide)
    have bound := Nat.ofBits_lt_two_pow fun k : Fin 8 => member (8 * (n / 8) + k)
    have byte : bitAt (ofBits len member) (8 * (n / 8) + n % 8) = _ :=
      bitAt_byte (by simpa using h) small
    rw [split] at byte
    rw [byte]
    simp [ofBits, Nat.mod_eq_of_lt bound, Nat.testBit_ofBits_lt _ _ small, split]
  · rw [bitAt_past (by simpa using h)]
    cases hit : member n with
    | false => rfl
    | true => exact absurd (inside n hit) h

end Rust
