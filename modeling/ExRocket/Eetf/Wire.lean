import ExRocket.Eetf.Term

/-! The external term format on the terms the operations are made of: integers, ASCII
atoms, binaries, lists and tuples, with the tags and widths Erlang documents. It is one
instance of the codec parameter; a term of any other kind it neither writes nor reads. -/
namespace ExRocket.Wire

open Rust

def u16 (n : Nat) : Bytes := [UInt8.ofNat (n / 2 ^ 8), UInt8.ofNat n]
def u32 (n : Nat) : Bytes :=
  [UInt8.ofNat (n / 2 ^ 24), UInt8.ofNat (n / 2 ^ 16), UInt8.ofNat (n / 2 ^ 8), UInt8.ofNat n]

def readU16 : Bytes → Option (Nat × Bytes)
  | a :: b :: rest => some (a.toNat * 2 ^ 8 + b.toNat, rest)
  | _ => none

def readU32 : Bytes → Option (Nat × Bytes)
  | a :: b :: c :: d :: rest =>
    some (((a.toNat * 2 ^ 8 + b.toNat) * 2 ^ 8 + c.toNat) * 2 ^ 8 + d.toNat, rest)
  | _ => none

def takeBytes (n : Nat) (bytes : Bytes) : Option (Bytes × Bytes) :=
  if n ≤ bytes.length then some (bytes.take n, bytes.drop n) else none

/-- Little-endian digits of a magnitude, at most 255 of them. -/
def digits : Nat → Nat → Bytes
  | 0, _ => []
  | fuel + 1, n => if n = 0 then [] else UInt8.ofNat n :: digits fuel (n / 256)

def ofDigits : Bytes → Nat
  | [] => 0
  | b :: bs => b.toNat + 256 * ofDigits bs

/-- A list of bytes is written as a string. -/
def asByte : EetfTerm → Option UInt8
  | .fixInteger v =>
    if 0 ≤ v.toInt ∧ v.toInt ≤ 255 then some (UInt8.ofNat v.toInt.toNat) else none
  | _ => none

mutual
def write : EetfTerm → Option Bytes
  | .fixInteger v =>
    if 0 ≤ v.toInt ∧ v.toInt ≤ 255 then some [97, UInt8.ofNat v.toInt.toNat]
    else some (98 :: u32 (v.toInt % 2 ^ 32).toNat)
  | .bigInteger n =>
    let size := (digits 255 n.natAbs).length
    if n.natAbs < 256 ^ 255 then
      some (110 :: UInt8.ofNat size :: (if n < 0 then 1 else 0) :: digits 255 n.natAbs)
    else none
  | .atom name =>
    if name.toList.all (·.toNat < 0x80) ∧ name.toList.length < 2 ^ 16 then
      some (100 :: u16 name.toList.length ++ name.toList.map (UInt8.ofNat ·.toNat))
    else none
  | .binary bytes => if bytes.length < 2 ^ 32 then some (109 :: u32 bytes.length ++ bytes) else none
  | .list [] => some [106]
  | .list (t :: ts) =>
    if (t :: ts).length < 2 ^ 16 ∧ (t :: ts).all (asByte · |>.isSome) then
      some (107 :: u16 (t :: ts).length ++ (t :: ts).filterMap asByte)
    else if (t :: ts).length < 2 ^ 32 then
      (writeAll (t :: ts)).map fun body => 108 :: u32 (t :: ts).length ++ body ++ [106]
    else none
  | .tuple ts =>
    if ts.length < 2 ^ 8 then (writeAll ts).map fun body => 104 :: UInt8.ofNat ts.length :: body
    else if ts.length < 2 ^ 32 then (writeAll ts).map fun body => 105 :: u32 ts.length ++ body
    else none
  | .other _ => none

def writeAll : List EetfTerm → Option Bytes
  | [] => some []
  | t :: ts => (write t).bind fun head => (writeAll ts).map fun rest => head ++ rest
end

def readMany (readOne : Bytes → Option (EetfTerm × Bytes)) :
    Nat → Bytes → Option (List EetfTerm × Bytes)
  | 0, rest => some ([], rest)
  | n + 1, bytes =>
    (readOne bytes).bind fun (t, rest) =>
      (readMany readOne n rest).map fun (ts, rest) => (t :: ts, rest)

/-- The fuel is the number of bytes left; a term takes at least one. -/
def read : Nat → Bytes → Option (EetfTerm × Bytes)
  | 0, _ | _, [] => none
  | fuel + 1, tag :: rest =>
    match tag.toNat with
    | 97 => (takeBytes 1 rest).map fun (v, rest) => (.fixInteger (Int32.ofNat (ofDigits v)), rest)
    | 98 => (readU32 rest).map fun (n, rest) => (.fixInteger (Int32.ofNat n), rest)
    | 100 =>
      (readU16 rest).bind fun (n, rest) =>
        (takeBytes n rest).map fun (name, rest) =>
          (.atom (String.ofList (name.map (Char.ofNat ·.toNat))), rest)
    | 104 =>
      (takeBytes 1 rest).bind fun (n, rest) =>
        (readMany (read fuel) (ofDigits n) rest).map fun (ts, rest) => (.tuple ts, rest)
    | 105 =>
      (readU32 rest).bind fun (n, rest) =>
        (readMany (read fuel) n rest).map fun (ts, rest) => (.tuple ts, rest)
    | 106 => some (.list [], rest)
    | 107 =>
      (readU16 rest).bind fun (n, rest) =>
        (takeBytes n rest).map fun (bytes, rest) =>
          (.list (bytes.map fun b => .fixInteger (Int32.ofNat b.toNat)), rest)
    | 108 =>
      (readU32 rest).bind fun (n, rest) =>
        (readMany (read fuel) n rest).bind fun (ts, rest) =>
          if rest.head? = some 106 then some (.list ts, rest.drop 1) else none
    | 109 =>
      (readU32 rest).bind fun (n, rest) =>
        (takeBytes n rest).map fun (bytes, rest) => (.binary bytes, rest)
    | 110 =>
      (takeBytes 2 rest).bind fun (header, rest) =>
        (takeBytes (ofDigits (header.take 1)) rest).map fun (body, rest) =>
          (.bigInteger (if header.drop 1 = [0] then ofDigits body else -ofDigits body), rest)
    | _ => none

def encode (t : EetfTerm) : Option Bytes := (write t).map (131 :: ·)

/-- Trailing bytes are left unread. -/
def decode : Bytes → Option EetfTerm
  | 131 :: rest => (read rest.length rest).map Prod.fst
  | _ => none

theorem decode_version (bytes : Bytes) (t : EetfTerm) (decodes : decode bytes = some t) :
    bytes.head? = some 131 := by
  unfold decode at decodes
  split at decodes
  · rfl
  · cases decodes

theorem readMany_length {readOne : Bytes → Option (EetfTerm × Bytes)} {n : Nat}
    {bytes : Bytes} {ts : List EetfTerm} {rest : Bytes}
    (done : readMany readOne n bytes = some (ts, rest)) : ts.length = n := by
  induction n generalizing bytes ts rest with
  | zero =>
    cases done
    rfl
  | succ n ih =>
    simp only [readMany, Option.bind_eq_some_iff, Option.map_eq_some_iff, Prod.exists] at done
    obtain ⟨t, mid, _, us, tail, more, same⟩ := done
    cases same
    simp [ih more]

theorem readU16_lt {bytes rest : Bytes} {n : Nat} (done : readU16 bytes = some (n, rest)) :
    n < 2 ^ 16 := by
  unfold readU16 at done
  split at done
  · rename_i a b _
    cases done
    have ha := a.toNat_lt
    have hb := b.toNat_lt
    omega
  · cases done

theorem readU32_lt {bytes rest : Bytes} {n : Nat} (done : readU32 bytes = some (n, rest)) :
    n < 2 ^ 32 := by
  unfold readU32 at done
  split at done
  · rename_i a b c d _
    cases done
    have ha := a.toNat_lt
    have hb := b.toNat_lt
    have hc := c.toNat_lt
    have hd := d.toNat_lt
    omega
  · cases done

theorem takeBytes_length {n : Nat} {bytes taken rest : Bytes}
    (done : takeBytes n bytes = some (taken, rest)) : taken.length = n := by
  unfold takeBytes at done
  split at done
  · cases done
    exact List.length_take_of_le ‹_›
  · cases done

theorem read_fits (fuel : Nat) (bytes : Bytes) (t : EetfTerm) (rest : Bytes)
    (done : read fuel bytes = some (t, rest)) : t.Fits := by
  have wide : 2 ^ 32 ≤ isizeMax := by decide
  have narrow : 2 ^ 16 ≤ isizeMax := by decide
  unfold read at done
  split at done
  · cases done
  · cases done
  · split at done
    all_goals
      try simp only [Option.bind_eq_some_iff, Option.map_eq_some_iff, Prod.exists] at done
    · obtain ⟨_, _, _, same⟩ := done
      cases same
      trivial
    · obtain ⟨_, _, _, same⟩ := done
      cases same
      trivial
    · obtain ⟨_, _, _, _, _, _, same⟩ := done
      cases same
      trivial
    · obtain ⟨_, _, _, _, _, _, same⟩ := done
      cases same
      trivial
    · obtain ⟨_, _, _, _, _, _, same⟩ := done
      cases same
      trivial
    · cases done
      exact Nat.zero_le _
    · obtain ⟨n, _, size, body, _, taken, same⟩ := done
      cases same
      have length := takeBytes_length taken
      have bound := readU16_lt size
      simp only [EetfTerm.Fits, List.length_map]
      omega
    · obtain ⟨n, _, size, ts, _, many, last⟩ := done
      split at last
      · cases last
        have length := readMany_length many
        have bound := readU32_lt size
        simp only [EetfTerm.Fits]
        omega
      · cases last
    · obtain ⟨n, _, size, body, _, taken, same⟩ := done
      cases same
      have length := takeBytes_length taken
      have bound := readU32_lt size
      simp only [EetfTerm.Fits]
      omega
    · obtain ⟨_, _, _, _, _, _, same⟩ := done
      cases same
      trivial
    · cases done

theorem decode_fits (bytes : Bytes) (t : EetfTerm) (decodes : decode bytes = some t) :
    t.Fits := by
  unfold decode at decodes
  split at decodes
  · rename_i rest
    simp only [Option.map_eq_some_iff, Prod.exists] at decodes
    obtain ⟨u, left, done, same⟩ := decodes
    subst same
    exact read_fits _ _ _ _ done
  · cases decodes

def codec : Eetf where
  decode := decode
  encode := encode
  eq := EetfTerm.same
  decode_version := decode_version
  decode_fits := decode_fits

example : encode (.tuple [.atom "int_add", .fixInteger 5]) =
    some [131, 104, 2, 100, 0, 7, 105, 110, 116, 95, 97, 100, 100, 97, 5] := by decide

end ExRocket.Wire
