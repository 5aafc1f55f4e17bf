import ExRocket.Rust.Text

/-! Terms of the external term format, as the merge operator sees them. The crate that
decodes, encodes and compares them is not part of the repository, so it is a parameter. -/
namespace ExRocket

open Rust

/- The constructors the merge operator matches on. Every other kind of term (floats,
pids, ports, references, funs, bit binaries, improper lists, maps) is only ever moved,
compared and encoded; it is kept as its external bytes. -/
inductive EetfTerm where
  | atom (name : String)
  | fixInteger (value : Int32)
  | bigInteger (value : Int)
  | binary (bytes : Bytes)
  | list (elements : List EetfTerm)
  | tuple (elements : List EetfTerm)
  | other (external : Bytes)
  deriving Repr

namespace EetfTerm

mutual
def same : EetfTerm → EetfTerm → Bool
  | .atom a, .atom b => a == b
  | .fixInteger a, .fixInteger b => a == b
  | .bigInteger a, .bigInteger b => a == b
  | .binary a, .binary b => a == b
  | .list as, .list bs => sameList as bs
  | .tuple as, .tuple bs => sameList as bs
  | .other a, .other b => a == b
  | _, _ => false

def sameList : List EetfTerm → List EetfTerm → Bool
  | [], [] => true
  | a :: as, b :: bs => same a b && sameList as bs
  | _, _ => false
end

mutual
theorem same_iff (a b : EetfTerm) : same a b = true ↔ a = b := by
  cases a with
  | atom | fixInteger | bigInteger | binary | other => cases b <;> simp [same]
  | list as | tuple as =>
    cases b <;> simp [same]
    exact sameList_iff as _

theorem sameList_iff (as bs : List EetfTerm) : sameList as bs = true ↔ as = bs := by
  cases as with
  | nil => cases bs <;> simp [sameList]
  | cons a as =>
    cases bs with
    | nil => simp [sameList]
    | cons b bs =>
      have head := same_iff a b
      have rest := sameList_iff as bs
      simp [sameList, head, rest]
end

instance : DecidableEq EetfTerm := fun a b => decidable_of_iff _ (same_iff a b)

/-- No vector holds more than isize::MAX elements; this is about the outermost one. -/
def Fits : EetfTerm → Prop
  | .list elements => elements.length ≤ isizeMax
  | .binary bytes => bytes.length ≤ isizeMax
  | _ => True

end EetfTerm

/-- What merge.rs uses of the crate: decoding, encoding and term equality. The two laws are
the version byte of the format and the capacity of the vectors a decoded term holds. -/
structure Eetf where
  decode : Bytes → Option EetfTerm
  encode : EetfTerm → Option Bytes
  eq : EetfTerm → EetfTerm → Bool
  decode_version : ∀ bytes t, decode bytes = some t → bytes.head? = some 131
  decode_fits : ∀ bytes t, decode bytes = some t → t.Fits

namespace Eetf

variable (c : Eetf)

/- The term is written, and reading what was written gives the term back. -/
def RoundTrips (t : EetfTerm) : Prop := ∃ bytes, c.encode t = some bytes ∧ c.decode bytes = some t

/-- The version byte 131 starts no UTF-8 text: an encoded term is never read as text. -/
theorem version_not_text {bytes : Bytes} (version : bytes.head? = some 131) :
    fromUtf8 bytes = none := by
  cases bytes with
  | nil => cases version
  | cons b rest =>
    have lead : b = 131 := Option.some.inj version
    subst lead
    exact fromUtf8_bad_lead 131 rest (by decide) (by decide)

theorem decoded_not_text {bytes : Bytes} {t : EetfTerm} (decoded : c.decode bytes = some t) :
    fromUtf8 bytes = none :=
  version_not_text (c.decode_version bytes t decoded)

theorem text_not_decoded (s : Str) : c.decode (intoBytes s) = none := by
  cases h : c.decode (intoBytes s) with
  | none => rfl
  | some t => exact absurd (fromUtf8_intoBytes s) (by simp [c.decoded_not_text h])

end Eetf
end ExRocket
