import ExRocket.Rust.Vec
import Mathlib.Data.List.DropRight

/-! Text of Rust's standard library: str is a list of characters, bytes are read as
UTF-8, and the integer parsers and printers are those of i64 and usize. -/
namespace Rust

abbrev Str := List Char

def tail (b : UInt8) : Bool := decide (0x80 ≤ b.toNat) && decide (b.toNat ≤ 0xBF)

/-- The second byte of a three-byte character: no overlong form, no surrogate. -/
def tailThree (a b : UInt8) : Bool :=
  tail b && !(decide (a.toNat = 0xE0) && decide (b.toNat < 0xA0))
    && !(decide (a.toNat = 0xED) && decide (0xA0 ≤ b.toNat))

/-- The second byte of a four-byte character: no overlong form, at most U+10FFFF. -/
def tailFour (a b : UInt8) : Bool :=
  tail b && !(decide (a.toNat = 0xF0) && decide (b.toNat < 0x90))
    && !(decide (a.toNat = 0xF4) && decide (0x90 ≤ b.toNat))

/-- `std::str::from_utf8(bytes).ok()` -/
def fromUtf8 : Bytes → Option Str
  | [] => some []
  | a :: rest =>
    if a.toNat < 0x80 then (fromUtf8 rest).map (Char.ofNat a.toNat :: ·)
    else
      match rest with
      | [] => none
      | b :: rest =>
        if 0xC2 ≤ a.toNat ∧ a.toNat ≤ 0xDF ∧ tail b then
          (fromUtf8 rest).map (Char.ofNat (a.toNat % 0x20 * 0x40 + b.toNat % 0x40) :: ·)
        else
          match rest with
          | [] => none
          | c :: rest =>
            if 0xE0 ≤ a.toNat ∧ a.toNat ≤ 0xEF ∧ tailThree a b ∧ tail c then
              (fromUtf8 rest).map
                (Char.ofNat ((a.toNat % 0x10 * 0x40 + b.toNat % 0x40) * 0x40 + c.toNat % 0x40) :: ·)
            else
              match rest with
              | [] => none
              | d :: rest =>
                if 0xF0 ≤ a.toNat ∧ a.toNat ≤ 0xF4 ∧ tailFour a b ∧ tail c ∧ tail d then
                  (fromUtf8 rest).map
                    (Char.ofNat (((a.toNat % 0x08 * 0x40 + b.toNat % 0x40) * 0x40
                      + c.toNat % 0x40) * 0x40 + d.toNat % 0x40) :: ·)
                else none

/-- `s.into_bytes()` -/
def intoBytes (s : Str) : Bytes := s.flatMap String.utf8EncodeChar

/-- `char::is_whitespace`, the Unicode property White_Space. -/
def isWhitespace (c : Char) : Bool :=
  let n := c.toNat
  decide (0x09 ≤ n ∧ n ≤ 0x0D) || n == 0x20 || n == 0x85 || n == 0xA0 || n == 0x1680
    || decide (0x2000 ≤ n ∧ n ≤ 0x200A) || n == 0x2028 || n == 0x2029 || n == 0x202F
    || n == 0x205F || n == 0x3000

def trim (s : Str) : Str := (s.dropWhile isWhitespace).rdropWhile isWhitespace

def parseDigits (s : Str) : Option Nat :=
  if s ≠ [] ∧ s.all Char.isDigit then some (Nat.ofDigitChars 10 s 0) else none

/-- The signed grammar: an optional sign, then digits. -/
def parseSigned : Str → Option Int
  | '+' :: ds => (parseDigits ds).map Int.ofNat
  | '-' :: ds => (parseDigits ds).map fun n => -Int.ofNat n
  | ds => (parseDigits ds).map Int.ofNat

/-- `s.parse::<i64>().ok()` -/
def parseI64 (s : Str) : Option Int64 :=
  (parseSigned s).bind fun n =>
    if -2 ^ 63 ≤ n ∧ n < 2 ^ 63 then some (Int64.ofInt n) else none

/-- `s.parse::<i32>().ok()` -/
def parseI32 (s : Str) : Option Int32 :=
  (parseSigned s).bind fun n =>
    if -2 ^ 31 ≤ n ∧ n < 2 ^ 31 then some (Int32.ofInt n) else none

/-- `s.parse::<usize>().ok()`: a plus sign is allowed, a minus sign is not a digit. -/
def parseUsize (s : Str) : Option Nat :=
  (match s with
    | '+' :: ds => parseDigits ds
    | ds => parseDigits ds).bind fun n => if n < usizeSize then some n else none

def decimal (n : Int) : Str :=
  if n < 0 then '-' :: Nat.toDigits 10 n.natAbs else Nat.toDigits 10 n.natAbs

def i64ToString (v : Int64) : Str := decimal v.toInt

theorem toNat_ofNat_byte {n : Nat} (h : n < 256) : (UInt8.ofNat n).toNat = n := by
  simp [Nat.mod_eq_of_lt h]

theorem fromUtf8_char (c : Char) (rest : Bytes) :
    fromUtf8 (String.utf8EncodeChar c ++ rest) = (fromUtf8 rest).map (c :: ·) := by
  have valid : c.toNat < 0xD800 ∨ (0xDFFF < c.toNat ∧ c.toNat < 0x110000) := c.valid
  have back : Char.ofNat c.toNat = c := Char.ofNat_toNat c
  have value : c.val.toNat = c.toNat := rfl
  unfold String.utf8EncodeChar
  simp only [value]
  split_ifs with one two three
  · have h0 := toNat_ofNat_byte (n := c.toNat) (by omega)
    have ascii : c.toNat < 0x80 := by omega
    simp only [List.cons_append, List.nil_append]
    rw [fromUtf8.eq_def]
    simp only [h0, if_pos ascii, back]
  · have h0 := toNat_ofNat_byte (n := c.toNat / 64 % 32 + 192) (by omega)
    have h1 := toNat_ofNat_byte (n := c.toNat % 64 + 128) (by omega)
    have lead : ¬ c.toNat / 64 % 32 + 192 < 0x80 := by omega
    have shape : 0xC2 ≤ c.toNat / 64 % 32 + 192 ∧ c.toNat / 64 % 32 + 192 ≤ 0xDF ∧
        tail (UInt8.ofNat (c.toNat % 64 + 128)) = true := by
      simp only [tail, h1, Bool.and_eq_true, decide_eq_true_eq]
      omega
    have sum : (c.toNat / 64 % 32 + 192) % 0x20 * 0x40 + (c.toNat % 64 + 128) % 0x40
        = c.toNat := by omega
    simp only [List.cons_append, List.nil_append]
    rw [fromUtf8.eq_def]
    simp only [h0, if_neg lead, if_pos shape, h1, sum, back]
  · have h0 := toNat_ofNat_byte (n := c.toNat / 4096 % 16 + 224) (by omega)
    have h1 := toNat_ofNat_byte (n := c.toNat / 64 % 64 + 128) (by omega)
    have h2 := toNat_ofNat_byte (n := c.toNat % 64 + 128) (by omega)
    have lead : ¬ c.toNat / 4096 % 16 + 224 < 0x80 := by omega
    have skip : ¬ (0xC2 ≤ c.toNat / 4096 % 16 + 224 ∧ c.toNat / 4096 % 16 + 224 ≤ 0xDF ∧
        tail (UInt8.ofNat (c.toNat / 64 % 64 + 128)) = true) := by omega
    have shape : 0xE0 ≤ c.toNat / 4096 % 16 + 224 ∧ c.toNat / 4096 % 16 + 224 ≤ 0xEF ∧
        tailThree (UInt8.ofNat (c.toNat / 4096 % 16 + 224))
          (UInt8.ofNat (c.toNat / 64 % 64 + 128)) = true ∧
        tail (UInt8.ofNat (c.toNat % 64 + 128)) = true := by
      simp only [tailThree, tail, h0, h1, h2, Bool.and_eq_true, decide_eq_true_eq,
        Bool.not_eq_true', Bool.and_eq_false_iff, decide_eq_false_iff_not]
      omega
    have sum : ((c.toNat / 4096 % 16 + 224) % 0x10 * 0x40 + (c.toNat / 64 % 64 + 128) % 0x40)
        * 0x40 + (c.toNat % 64 + 128) % 0x40 = c.toNat := by omega
    simp only [List.cons_append, List.nil_append]
    rw [fromUtf8.eq_def]
    simp only [h0, if_neg lead, if_neg skip, if_pos shape, h1, h2, sum, back]
  · have h0 := toNat_ofNat_byte (n := c.toNat / 262144 % 8 + 240) (by omega)
    have h1 := toNat_ofNat_byte (n := c.toNat / 4096 % 64 + 128) (by omega)
    have h2 := toNat_ofNat_byte (n := c.toNat / 64 % 64 + 128) (by omega)
    have h3 := toNat_ofNat_byte (n := c.toNat % 64 + 128) (by omega)
    have lead : ¬ c.toNat / 262144 % 8 + 240 < 0x80 := by omega
    have skip2 : ¬ (0xC2 ≤ c.toNat / 262144 % 8 + 240 ∧ c.toNat / 262144 % 8 + 240 ≤ 0xDF ∧
        tail (UInt8.ofNat (c.toNat / 4096 % 64 + 128)) = true) := by omega
    have skip3 : ¬ (0xE0 ≤ c.toNat / 262144 % 8 + 240 ∧ c.toNat / 262144 % 8 + 240 ≤ 0xEF ∧
        tailThree (UInt8.ofNat (c.toNat / 262144 % 8 + 240))
          (UInt8.ofNat (c.toNat / 4096 % 64 + 128)) = true ∧
        tail (UInt8.ofNat (c.toNat / 64 % 64 + 128)) = true) := by omega
    have shape : 0xF0 ≤ c.toNat / 262144 % 8 + 240 ∧ c.toNat / 262144 % 8 + 240 ≤ 0xF4 ∧
        tailFour (UInt8.ofNat (c.toNat / 262144 % 8 + 240))
          (UInt8.ofNat (c.toNat / 4096 % 64 + 128)) = true ∧
        tail (UInt8.ofNat (c.toNat / 64 % 64 + 128)) = true ∧
        tail (UInt8.ofNat (c.toNat % 64 + 128)) = true := by
      simp only [tailFour, tail, h0, h1, h2, h3, Bool.and_eq_true, decide_eq_true_eq,
        Bool.not_eq_true', Bool.and_eq_false_iff, decide_eq_false_iff_not]
      omega
    have sum : (((c.toNat / 262144 % 8 + 240) % 0x08 * 0x40 + (c.toNat / 4096 % 64 + 128) % 0x40)
        * 0x40 + (c.toNat / 64 % 64 + 128) % 0x40) * 0x40 + (c.toNat % 64 + 128) % 0x40
        = c.toNat := by omega
    simp only [List.cons_append, List.nil_append]
    rw [fromUtf8.eq_def]
    simp only [h0, if_neg lead, if_neg skip2, if_neg skip3, if_pos shape, h1, h2, h3, sum, back]

theorem intoBytes_cons (c : Char) (s : Str) :
    intoBytes (c :: s) = String.utf8EncodeChar c ++ intoBytes s :=
  List.flatMap_cons

theorem fromUtf8_intoBytes (s : Str) : fromUtf8 (intoBytes s) = some s := by
  induction s with
  | nil => rfl
  | cons c s ih =>
    rw [intoBytes_cons, fromUtf8_char, ih]
    rfl

theorem encode_charOfNat {n : Nat} (valid : n < 0xD800 ∨ (0xDFFF < n ∧ n < 0x110000)) :
    String.utf8EncodeChar (Char.ofNat n) =
      if n < 0x80 then [UInt8.ofNat n]
      else if n < 0x800 then [UInt8.ofNat (n / 64 % 32 + 192), UInt8.ofNat (n % 64 + 128)]
      else if n < 0x10000 then
        [UInt8.ofNat (n / 4096 % 16 + 224), UInt8.ofNat (n / 64 % 64 + 128),
          UInt8.ofNat (n % 64 + 128)]
      else
        [UInt8.ofNat (n / 262144 % 8 + 240), UInt8.ofNat (n / 4096 % 64 + 128),
          UInt8.ofNat (n / 64 % 64 + 128), UInt8.ofNat (n % 64 + 128)] := by
  have value : (Char.ofNat n).val.toNat = n := by
    have h : n.isValidChar := valid
    rw [Char.ofNat, dif_pos h]
    rfl
  unfold String.utf8EncodeChar
  simp only [value]
  split_ifs <;> first | rfl | omega

theorem ofNat_byte {n : Nat} {a : UInt8} (same : n = a.toNat) : UInt8.ofNat n = a := by
  rw [same, UInt8.ofNat_toNat]

/-- Text is only read from its own bytes. -/
theorem intoBytes_fromUtf8 {bytes : Bytes} {s : Str} (decodes : fromUtf8 bytes = some s) :
    intoBytes s = bytes := by
  fun_induction fromUtf8 bytes generalizing s with
  | case1 =>
    cases decodes
    rfl
  | case2 a rest ascii ih =>
    obtain ⟨s', rest', rfl⟩ := Option.map_eq_some_iff.mp decodes
    have head : String.utf8EncodeChar (Char.ofNat a.toNat) = [a] := by
      rw [encode_charOfNat (by omega), if_pos ascii, UInt8.ofNat_toNat]
    simp only [intoBytes_cons, head, ih rest', List.cons_append, List.nil_append]
  | case3 => cases decodes
  | case4 a high b rest two ih =>
    obtain ⟨s', rest', rfl⟩ := Option.map_eq_some_iff.mp decodes
    obtain ⟨low, top, second⟩ := two
    simp only [tail, Bool.and_eq_true, decide_eq_true_eq] at second
    have head : String.utf8EncodeChar (Char.ofNat (a.toNat % 0x20 * 0x40 + b.toNat % 0x40)) =
        [a, b] := by
      rw [encode_charOfNat (by omega), if_neg (by omega), if_pos (by omega),
        ofNat_byte (a := a) (by omega), ofNat_byte (a := b) (by omega)]
    simp only [intoBytes_cons, head, ih rest', List.cons_append, List.nil_append]
  | case5 => cases decodes
  | case6 a high b _ c rest three ih =>
    obtain ⟨s', rest', rfl⟩ := Option.map_eq_some_iff.mp decodes
    obtain ⟨low, top, second, third⟩ := three
    simp only [tailThree, tail, Bool.and_eq_true, decide_eq_true_eq, Bool.not_eq_true',
      Bool.and_eq_false_iff, decide_eq_false_iff_not] at second third
    have head : String.utf8EncodeChar (Char.ofNat
        ((a.toNat % 0x10 * 0x40 + b.toNat % 0x40) * 0x40 + c.toNat % 0x40)) = [a, b, c] := by
      rw [encode_charOfNat (by omega), if_neg (by omega), if_neg (by omega), if_pos (by omega),
        ofNat_byte (a := a) (by omega), ofNat_byte (a := b) (by omega),
        ofNat_byte (a := c) (by omega)]
    simp only [intoBytes_cons, head, ih rest', List.cons_append, List.nil_append]
  | case7 => cases decodes
  | case8 a high b _ c _ d rest four ih =>
    obtain ⟨s', rest', rfl⟩ := Option.map_eq_some_iff.mp decodes
    obtain ⟨low, top, second, third, fourth⟩ := four
    simp only [tailFour, tail, Bool.and_eq_true, decide_eq_true_eq, Bool.not_eq_true',
      Bool.and_eq_false_iff, decide_eq_false_iff_not] at second third fourth
    have head : String.utf8EncodeChar (Char.ofNat
        (((a.toNat % 0x08 * 0x40 + b.toNat % 0x40) * 0x40 + c.toNat % 0x40) * 0x40 +
          d.toNat % 0x40)) = [a, b, c, d] := by
      rw [encode_charOfNat (by omega), if_neg (by omega), if_neg (by omega), if_neg (by omega),
        ofNat_byte (a := a) (by omega), ofNat_byte (a := b) (by omega),
        ofNat_byte (a := c) (by omega), ofNat_byte (a := d) (by omega)]
    simp only [intoBytes_cons, head, ih rest', List.cons_append, List.nil_append]
  | case9 => cases decodes

/-- No character starts with a continuation byte or with 0xC0 or 0xC1. -/
theorem fromUtf8_bad_lead (a : UInt8) (rest : Bytes) (low : 0x80 ≤ a.toNat)
    (high : a.toNat < 0xC2) : fromUtf8 (a :: rest) = none := by
  have ascii : ¬ a.toNat < 0x80 := by omega
  have two : ∀ b, ¬ (0xC2 ≤ a.toNat ∧ a.toNat ≤ 0xDF ∧ tail b = true) := by intro b; omega
  have three : ∀ b c, ¬ (0xE0 ≤ a.toNat ∧ a.toNat ≤ 0xEF ∧ tailThree a b = true ∧
      tail c = true) := by intro b c; omega
  have four : ∀ b c d, ¬ (0xF0 ≤ a.toNat ∧ a.toNat ≤ 0xF4 ∧ tailFour a b = true ∧
      tail c = true ∧ tail d = true) := by intro b c d; omega
  rw [fromUtf8.eq_def]
  simp only [if_neg ascii]
  cases rest with
  | nil => rfl
  | cons b rest =>
    simp only [if_neg (two b)]
    cases rest with
    | nil => rfl
    | cons c rest =>
      simp only [if_neg (three b c)]
      cases rest with
      | nil => rfl
      | cons d rest => simp only [if_neg (four b c d)]

theorem parseDigits_toDigits (n : Nat) : parseDigits (Nat.toDigits 10 n) = some n := by
  have digits : ∀ c ∈ Nat.toDigits 10 n, c.isDigit = true :=
    fun c member => Nat.isDigit_of_mem_toDigits (by decide) (by decide) member
  have shape : Nat.toDigits 10 n ≠ [] ∧ (Nat.toDigits 10 n).all Char.isDigit = true :=
    ⟨Nat.toDigits_ne_nil, List.all_eq_true.mpr digits⟩
  rw [parseDigits, if_pos shape, Nat.ofDigitChars_ten_toDigits]

theorem parseSigned_digits (c : Char) (s : Str) (digit : c.isDigit = true) :
    parseSigned (c :: s) = (parseDigits (c :: s)).map Int.ofNat := by
  unfold parseSigned
  split
  · rename_i h
    cases (List.cons.inj h).1
    exact absurd digit (by decide)
  · rename_i h
    cases (List.cons.inj h).1
    exact absurd digit (by decide)
  · rfl

theorem parseSigned_toDigits (n : Nat) : parseSigned (Nat.toDigits 10 n) = some (n : Int) := by
  have read := parseDigits_toDigits n
  cases h : Nat.toDigits 10 n with
  | nil => exact absurd h Nat.toDigits_ne_nil
  | cons c s =>
    have digit : c.isDigit = true :=
      Nat.isDigit_of_mem_toDigits (b := 10) (n := n) (by decide) (by decide) (by simp [h])
    rw [parseSigned_digits c s digit, ← h, read]
    rfl

theorem parseSigned_decimal (n : Int) : parseSigned (decimal n) = some n := by
  unfold decimal
  split
  · have value : -(n.natAbs : Int) = n := by omega
    rw [parseSigned, parseDigits_toDigits]
    exact congrArg some value
  · have value : (n.natAbs : Int) = n := by omega
    rw [parseSigned_toDigits, value]

/-- Printing and parsing an i64 is lossless on the whole range, the minimum included. -/
theorem parseI64_i64ToString (v : Int64) : parseI64 (i64ToString v) = some v := by
  have range : -2 ^ 63 ≤ v.toInt ∧ v.toInt < 2 ^ 63 := ⟨v.le_toInt, v.toInt_lt⟩
  rw [parseI64, i64ToString, parseSigned_decimal, Option.bind_some, if_pos range, Int64.ofInt_toInt]

end Rust
