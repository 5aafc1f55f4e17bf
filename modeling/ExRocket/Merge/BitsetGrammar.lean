import ExRocket.Merge.Bitset

/-! The operands of the bitset operator against their grammar: blank text, or a sign and the
decimal digits of a usize. The code leaves the digits to the usize parser, which takes a plus
sign of its own. -/
namespace ExRocket

open Rust

def Denotes (digits : Str) (n : Nat) : Prop :=
  digits ≠ [] ∧ (∀ c ∈ digits, c.isDigit) ∧ Nat.ofDigitChars 10 digits 0 = n ∧ n < usizeSize

def sign (v : Bool) : Char := if v then '+' else '-'

/-- The operands of the grammar and what they ask for. -/
inductive Grammar (o : Bytes) : BitAction → Prop where
  | clear {text : Str} : fromUtf8 o = some text → trim text = [] → Grammar o .clear
  | position {text digits : Str} {n : Nat} (v : Bool) : fromUtf8 o = some text →
      trim text = sign v :: digits → Denotes digits n → Grammar o (.write n v)

/-- A sign, a second sign that is a plus, and digits. -/
def SignedTwice (o : Bytes) (n : Nat) (v : Bool) : Prop :=
  ∃ text digits, fromUtf8 o = some text ∧ trim text = sign v :: '+' :: digits ∧ Denotes digits n

theorem parseDigits_eq_some_iff {s : Str} {n : Nat} :
    parseDigits s = some n ↔
      s ≠ [] ∧ (∀ c ∈ s, c.isDigit) ∧ Nat.ofDigitChars 10 s 0 = n := by
  simp [parseDigits, and_assoc]

theorem parseUsize_eq_some_iff {s : Str} {n : Nat} :
    parseUsize s = some n ↔ Denotes s n ∨ ∃ digits, s = '+' :: digits ∧ Denotes digits n := by
  have bounded : ∀ digits : Str, ((parseDigits digits).bind fun n =>
      if n < usizeSize then some n else none) = some n ↔ Denotes digits n := by
    intro digits
    rw [Option.bind_eq_some_iff, Denotes]
    simp only [Option.ite_none_right_eq_some, Option.some.injEq]
    constructor
    · rintro ⟨m, parsed, fits, rfl⟩
      obtain ⟨nonempty, all, value⟩ := parseDigits_eq_some_iff.mp parsed
      exact ⟨nonempty, all, value, fits⟩
    · rintro ⟨nonempty, all, value, fits⟩
      exact ⟨n, parseDigits_eq_some_iff.mpr ⟨nonempty, all, value⟩, fits, rfl⟩
  unfold parseUsize
  split
  · rename_i digits
    have unsigned : ¬ Denotes ('+' :: digits) n := by
      rintro ⟨_, all, _⟩
      exact absurd (all '+' List.mem_cons_self) (by decide)
    rw [bounded]
    simp [unsigned]
  · rename_i other
    rw [bounded]
    constructor
    · exact .inl
    · rintro (plain | ⟨digits, same, _⟩)
      · exact plain
      · exact absurd same (other digits)

theorem readAction_sign {o : Bytes} {text rest : Str} {v : Bool} (utf8 : fromUtf8 o = some text)
    (trimmed : trim text = sign v :: rest) :
    readAction o = (parseUsize rest).elim .skip fun pos => .write pos v := by
  unfold readAction
  rw [utf8]
  simp only [trimmed]
  cases v <;> rfl

theorem readAction_grammar {o : Bytes} {act : BitAction} (grammar : Grammar o act) :
    readAction o = act := by
  cases grammar with
  | clear utf8 blank =>
    unfold readAction
    rw [utf8]
    simp only [blank]
  | position v utf8 trimmed denotes =>
    rw [readAction_sign utf8 trimmed, parseUsize_eq_some_iff.mpr (.inl denotes)]
    rfl

theorem readAction_signedTwice {o : Bytes} {n : Nat} {v : Bool} (twice : SignedTwice o n v) :
    readAction o = .write n v := by
  obtain ⟨text, digits, utf8, trimmed, denotes⟩ := twice
  rw [readAction_sign utf8 trimmed, parseUsize_eq_some_iff.mpr (.inr ⟨digits, rfl, denotes⟩)]
  rfl

theorem sign_cases {o : Bytes} {text rest : Str} {v : Bool} (utf8 : fromUtf8 o = some text)
    (trimmed : trim text = sign v :: rest) :
    (∃ act, Grammar o act) ∨ (∃ n, SignedTwice o n v) ∨ readAction o = .skip := by
  cases parsed : parseUsize rest with
  | none =>
    refine .inr (.inr ?_)
    rw [readAction_sign utf8 trimmed, parsed]
    rfl
  | some n =>
    rcases parseUsize_eq_some_iff.mp parsed with plain | ⟨digits, rfl, denotes⟩
    · exact .inl ⟨_, .position v utf8 trimmed plain⟩
    · exact .inr (.inl ⟨n, text, digits, utf8, trimmed, denotes⟩)

/-- What the code acts on is in the grammar or is signed twice. -/
theorem readAction_cases (o : Bytes) :
    (∃ act, Grammar o act) ∨ (∃ n v, SignedTwice o n v) ∨ readAction o = .skip := by
  have signed : ∀ v text rest, fromUtf8 o = some text → trim text = sign v :: rest →
      (∃ act, Grammar o act) ∨ (∃ n v, SignedTwice o n v) ∨ readAction o = .skip := by
    intro v text rest utf8 trimmed
    rcases sign_cases utf8 trimmed with grammar | ⟨n, twice⟩ | skips
    · exact .inl grammar
    · exact .inr (.inl ⟨n, v, twice⟩)
    · exact .inr (.inr skips)
  cases utf8 : fromUtf8 o with
  | none =>
    refine .inr (.inr ?_)
    unfold readAction
    rw [utf8]
  | some text =>
    cases trimmed : trim text with
    | nil => exact .inl ⟨_, .clear utf8 trimmed⟩
    | cons c rest =>
      by_cases plus : c = '+'
      · exact signed true text rest utf8 (by rw [trimmed, plus]; rfl)
      · by_cases minus : c = '-'
        · exact signed false text rest utf8 (by rw [trimmed, minus]; rfl)
        · refine .inr (.inr ?_)
          unfold readAction
          rw [utf8]
          simp only [trimmed]
          split
          · rename_i blank
            cases blank
          · rename_i same
            exact absurd (List.cons.inj same).1 plus
          · rename_i same
            exact absurd (List.cons.inj same).1 minus
          · rfl

theorem signedTwice_not_grammar {o : Bytes} {n : Nat} {v : Bool} (twice : SignedTwice o n v)
    (act : BitAction) : ¬ Grammar o act := by
  obtain ⟨text, digits, utf8, trimmed, _⟩ := twice
  intro grammar
  cases grammar with
  | clear utf8' blank =>
    rw [utf8] at utf8'
    cases utf8'
    rw [trimmed] at blank
    cases blank
  | position v' utf8' trimmed' denotes =>
    rw [utf8] at utf8'
    cases utf8'
    rw [trimmed] at trimmed'
    cases (List.cons.inj trimmed').2
    exact absurd (denotes.2.1 '+' List.mem_cons_self) (by decide)

/-- An operand of the grammar does what it denotes, and any other leaves the value alone. -/
def GrammarHonoured (key : Bytes) (e : Option Bytes) (o : Bytes) : Prop :=
  ∃ final, bitsetMerge key e [o] = .ok (some final) ∧
    (∀ act, Grammar o act → Acts (e.getD []) act final) ∧
    ((∀ act, ¬ Grammar o act) → final = e.getD [])

theorem bitsetMerge_single (key : Bytes) (e : Option Bytes) (o : Bytes) :
    ∃ final, bitsetMerge key e [o] = .ok (some final) ∧
      Acts (e.getD []) (readAction o) final := by
  obtain ⟨final, step, acts⟩ := bitsetOperand_acts (e.getD []) o
  refine ⟨final, ?_, acts⟩
  rw [bitsetMerge, List.foldlM_cons, step]
  rfl

theorem acts_skip_same {bitset next : Bytes} (acts : Acts bitset .skip next) : next = bitset :=
  bits_ext acts.1 acts.2

/-- Writing a bit as it is already changes nothing: a bit that is set has its byte. -/
theorem acts_write_same_iff {bitset next : Bytes} {n : Nat} {v : Bool}
    (acts : Acts bitset (.write n v) next) : next = bitset ↔ bitAt bitset n = v := by
  obtain ⟨length, bits⟩ := acts
  constructor
  · rintro rfl
    exact (bits n).trans (if_pos rfl)
  · intro already
    apply bits_ext
    · rw [length]
      cases v with
      | false => exact Nat.max_zero _
      | true =>
        have inside : n / 8 < bitset.length := by
          by_contra past
          rw [bitAt_past (Nat.not_lt.mp past)] at already
          cases already
        exact Nat.max_eq_left inside
    · intro k
      rw [bits]
      by_cases same : n = k
      · rw [← same, already]
        exact if_pos rfl
      · exact if_neg same

theorem grammar_honoured_iff (key : Bytes) (e : Option Bytes) (o : Bytes) :
    GrammarHonoured key e o ↔ ∀ n v, SignedTwice o n v → bitAt (e.getD []) n = v := by
  obtain ⟨final, returns, acts⟩ := bitsetMerge_single key e o
  have honoured : GrammarHonoured key e o ↔
      (∀ act, Grammar o act → Acts (e.getD []) act final) ∧
        ((∀ act, ¬ Grammar o act) → final = e.getD []) := by
    rw [GrammarHonoured, returns]
    simp
  rw [honoured]
  constructor
  · rintro ⟨_, kept⟩ n v twice
    rw [readAction_signedTwice twice] at acts
    exact (acts_write_same_iff acts).mp (kept (signedTwice_not_grammar twice))
  · intro already
    constructor
    · intro act grammar
      rw [← readAction_grammar grammar]
      exact acts
    · intro outside
      rcases readAction_cases o with ⟨act, grammar⟩ | ⟨n, v, twice⟩ | skips
      · exact absurd grammar (outside act)
      · rw [readAction_signedTwice twice] at acts
        exact (acts_write_same_iff acts).mpr (already n v twice)
      · rw [skips] at acts
        exact acts_skip_same acts

/- The operand ++5 sets bit 5. -/
theorem grammar_exceeded : ¬ ∀ key e o, GrammarHonoured key e o := by
  intro honoured
  have twice : SignedTwice [43, 43, 53] 5 true :=
    ⟨['+', '+', '5'], ['5'], by decide, by decide, by decide,
      List.forall_mem_singleton.mpr rfl, by decide, by decide⟩
  obtain ⟨final, returns, _, kept⟩ := honoured [] none [43, 43, 53]
  have sets : bitsetMerge [] none [[43, 43, 53]] = .ok (some [32]) := by decide
  rw [sets] at returns
  cases returns
  cases kept (signedTwice_not_grammar twice)

end ExRocket
