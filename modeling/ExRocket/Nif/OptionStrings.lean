import ExRocket.Merge.CounterExact
import ExRocket.Merge.Integers
import ExRocket.Nif.Options

/-! The two options that are comma-separated integers. A string that lists the integers it
should is handed over as just these; at any other the conversion panics, except that the third
number of a rate limiter is cut down to 32 bits. -/
namespace ExRocket

open Rust

/-- Comma-separated decimal integers, each padded with white space. -/
def Listed (text : Str) (ns : List Int) : Prop :=
  List.Forall₂ (fun part n => parseSigned (trim part) = some n) (text.splitOn ',') ns

def LevelMultipliers (text : Str) (ns : List Int) : Prop :=
  Listed text ns ∧ ∀ n ∈ ns, FitsI32 n

/-- What follows the third number is read and not used. -/
def RateLimit (text : Str) (ratePerSec refillPeriod fairness : Int) : Prop :=
  ∃ rest, Listed text (ratePerSec :: refillPeriod :: fairness :: rest) ∧
    FitsI64 ratePerSec ∧ FitsI64 refillPeriod ∧ FitsI32 fairness ∧ ∀ n ∈ rest, FitsI64 n

theorem listed_unique {text : Str} {ns ms : List Int} (first : Listed text ns)
    (second : Listed text ms) : ns = ms := by
  apply List.right_unique_forall₂' _ first second
  intro part n m read read'
  exact Option.some.inj (read.symm.trans read')

section Narrowing

variable {α : Type} {fits : Int → Prop} {ofInt : Int → α} {toInt : α → Int}
  (widens : ∀ n, fits n → toInt (ofInt n) = n)
include widens

/-- A parser that narrows what it has read finds just the values that widen to it. -/
theorem narrowed_eq_some_iff [DecidablePred fits] (inside : ∀ v, fits (toInt v))
    (narrows : ∀ v, ofInt (toInt v) = v) {parsed : Option Int} {v : α} :
    (parsed.bind fun n => if fits n then some (ofInt n) else none) = some v ↔
      parsed = some (toInt v) := by
  rw [Option.bind_eq_some_iff]
  constructor
  · rintro ⟨n, read, within⟩
    split at within
    · rename_i fit
      cases within
      rw [read, widens n fit]
    · cases within
  · intro read
    exact ⟨toInt v, read, by rw [if_pos (inside v), narrows]⟩

theorem widened_of_fitting {ns : List Int} (fit : ∀ n ∈ ns, fits n) :
    ∃ vs : List α, vs.map toInt = ns := by
  refine ⟨ns.map ofInt, ?_⟩
  calc (ns.map ofInt).map toInt = ns.map (toInt ∘ ofInt) := List.map_map
    _ = ns.map id := List.map_congr_left fun n member => widens n (fit n member)
    _ = ns := List.map_id ns

end Narrowing

theorem toInt_ofInt_i32 (n : Int) (fits : FitsI32 n) : (Int32.ofInt n).toInt = n :=
  Int32.toInt_ofInt_of_le fits.1 fits.2

theorem toInt_ofInt_i64 (n : Int) (fits : FitsI64 n) : (Int64.ofInt n).toInt = n :=
  Int64.toInt_ofInt_of_le fits.1 fits.2

theorem parseI32_eq_some_iff {s : Str} {v : Int32} :
    parseI32 s = some v ↔ parseSigned s = some v.toInt :=
  narrowed_eq_some_iff toInt_ofInt_i32 (fun v => ⟨v.le_toInt, v.toInt_lt⟩) Int32.ofInt_toInt

theorem parseI64_eq_some_iff {s : Str} {v : Int64} :
    parseI64 s = some v ↔ parseSigned s = some v.toInt :=
  narrowed_eq_some_iff toInt_ofInt_i64 (fun v => ⟨v.le_toInt, v.toInt_lt⟩) Int64.ofInt_toInt

theorem unwrap_eq_ok_iff {α : Type} {x : Option α} {a : α} : unwrap x = .ok a ↔ x = some a := by
  constructor
  · exact unwrap_ok
  · rintro rfl
    rfl

/-- Reading the parts with a parser that prints back reads the listed integers. -/
theorem parts_ok_iff {α : Type} {parse : Str → Option α} {toInt : α → Int}
    (reads : ∀ s v, parse s = some v ↔ parseSigned s = some (toInt v)) (text : Str)
    (vs : List α) : (text.splitOn ',').mapM (fun part => unwrap (parse (trim part))) = .ok vs ↔
      Listed text (vs.map toInt) := by
  rw [mapM_ok_iff, Listed, List.forall₂_map_right_iff]
  simp only [unwrap_eq_ok_iff, reads]

theorem multiplierAdditional_ok_iff {text : Str} {s : Setting} :
    multiplierAdditional text = .ok s ↔
      ∃ vs, s = .levelMultipliers vs ∧ Listed text (vs.map Int32.toInt) := by
  have parts := parts_ok_iff (fun _ _ => parseI32_eq_some_iff) text
  rw [multiplierAdditional]
  constructor
  · intro converts
    obtain ⟨vs, read, same⟩ := bind_ok converts
    cases same
    exact ⟨vs, rfl, (parts vs).mp read⟩
  · rintro ⟨vs, rfl, listed⟩
    rw [(parts vs).mpr listed]
    rfl

theorem ratelimiter_ok_iff {text : Str} {s : Setting} :
    ratelimiter text = .ok s ↔
      ∃ a b c rest, s = .ratelimiter a b c.toInt32 ∧
        Listed text ((a :: b :: c :: rest).map Int64.toInt) := by
  have parts := parts_ok_iff (fun _ _ => parseI64_eq_some_iff) text
  rw [ratelimiter]
  constructor
  · intro converts
    obtain ⟨vs, read, rest⟩ := bind_ok converts
    have listed := (parts vs).mp read
    rcases vs with _ | ⟨a, _ | ⟨b, _ | ⟨c, rest'⟩⟩⟩
    · cases rest
    · cases rest
    · cases rest
    · cases rest
      exact ⟨a, b, c, rest', rfl, listed⟩
  · rintro ⟨a, b, c, rest, rfl, listed⟩
    rw [(parts _).mpr listed]
    rfl

theorem levelMultipliers_hands {text : Str} {ns : List Int} (multipliers : LevelMultipliers text ns)
    {vs : List Int32} :
    multiplierAdditional text = .ok (.levelMultipliers vs) ↔ vs.map Int32.toInt = ns := by
  rw [multiplierAdditional_ok_iff]
  constructor
  · rintro ⟨vs', same, listed⟩
    cases same
    exact listed_unique listed multipliers.1
  · rintro rfl
    exact ⟨vs, rfl, multipliers.1⟩

/-- Cutting the third number down to 32 bits keeps it when it fits. -/
theorem ratelimiter_hands {text : Str} {ratePerSec refillPeriod fairness : Int}
    (limit : RateLimit text ratePerSec refillPeriod fairness) {a b : Int64} {c : Int32} :
    ratelimiter text = .ok (.ratelimiter a b c) ↔
      a.toInt = ratePerSec ∧ b.toInt = refillPeriod ∧ c.toInt = fairness := by
  obtain ⟨rest, listed, _, _, small, others⟩ := limit
  have cut : ∀ w : Int64, w.toInt = fairness → w.toInt32.toInt = fairness := by
    intro w same
    rw [Int64.toInt_toInt32, same]
    unfold FitsI32 at small
    exact Int.bmod_eq_of_le (by omega) (by omega)
  rw [ratelimiter_ok_iff]
  constructor
  · rintro ⟨a', b', w, rest', same, listed'⟩
    cases same
    have parts := listed_unique listed' listed
    simp only [List.map_cons, List.cons.injEq] at parts
    exact ⟨parts.1, parts.2.1, cut w parts.2.2.1⟩
  · rintro ⟨rfl, rfl, rfl⟩
    obtain ⟨words, same⟩ := widened_of_fitting toInt_ofInt_i64 others
    refine ⟨a, b, c.toInt64, words, ?_, ?_⟩
    · have whole := cut c.toInt64 (Int32.toInt_toInt64 c)
      rw [Int32.toInt_inj.mp whole]
    · rw [List.map_cons, List.map_cons, List.map_cons, same, Int32.toInt_toInt64]
      exact listed

section Conversion

variable {opts : RockerOptions} {given : List Setting} {text : Str}

/-- What is handed over: one setting for each option that is given. -/
theorem mem_settings {names : List (String × OptionKind)}
    (converts : settings opts names = .ok given) {s : Setting} : s ∈ given ↔
      ∃ entry ∈ names, ∃ v, opts.lookup entry.1 = some v ∧ setting entry.1 v = .ok s := by
  induction names generalizing given with
  | nil =>
    cases converts
    simp
  | cons entry names ih =>
    obtain ⟨name, kind⟩ := entry
    rw [settings] at converts
    cases lookup : opts.lookup name with
    | none =>
      rw [lookup] at converts
      simp [ih converts, lookup]
    | some v =>
      rw [lookup] at converts
      obtain ⟨first, head, rest⟩ := bind_ok converts
      obtain ⟨others, tail, same⟩ := bind_ok rest
      cases same
      simp [ih tail, lookup, head, eq_comm]

/-- Both strings, where they are given, list what they should. -/
def StringsListed (opts : RockerOptions) : Prop :=
  (∀ text, opts.lookup "set_ratelimiter" = some (.string text) →
    ∃ ratePerSec refillPeriod fairness, RateLimit text ratePerSec refillPeriod fairness) ∧
  ∀ text, opts.lookup "set_max_bytes_for_level_multiplier_additional" = some (.string text) →
    ∃ ns, LevelMultipliers text ns

/-- No panic, the integers of strings that list them, and an error for all other strings. -/
structure Converts (opts : RockerOptions) : Prop where
  calm : settings opts optionKinds ≠ .error .panic
  listed : StringsListed opts → ∃ given, settings opts optionKinds = .ok given
  rateLimit : ∀ given, settings opts optionKinds = .ok given →
    ∀ text, opts.lookup "set_ratelimiter" = some (.string text) →
      ∃ ratePerSec refillPeriod fairness, RateLimit text ratePerSec refillPeriod fairness ∧
        ∀ a b c, .ratelimiter a b c ∈ given ↔
          a.toInt = ratePerSec ∧ b.toInt = refillPeriod ∧ c.toInt = fairness
  levelMultipliers : ∀ given, settings opts optionKinds = .ok given →
    ∀ text, opts.lookup "set_max_bytes_for_level_multiplier_additional" = some (.string text) →
      ∃ ns, LevelMultipliers text ns ∧
        ∀ vs, .levelMultipliers vs ∈ given ↔ vs.map Int32.toInt = ns

theorem setting_ratelimiter {name : String} {v : OptionValue} {a b : Int64} {c : Int32}
    (hands : setting name v = .ok (.ratelimiter a b c)) :
    name = "set_ratelimiter" ∧ ∃ text, v = .string text ∧
      ratelimiter text = .ok (.ratelimiter a b c) := by
  unfold setting at hands
  split at hands
  · obtain ⟨vs, same, _⟩ := multiplierAdditional_ok_iff.mp hands
    cases same
  · exact ⟨rfl, _, rfl, hands⟩
  · cases hands

theorem setting_levelMultipliers {name : String} {v : OptionValue} {vs : List Int32}
    (hands : setting name v = .ok (.levelMultipliers vs)) :
    name = "set_max_bytes_for_level_multiplier_additional" ∧ ∃ text, v = .string text ∧
      multiplierAdditional text = .ok (.levelMultipliers vs) := by
  unfold setting at hands
  split at hands
  · exact ⟨rfl, _, rfl, hands⟩
  · obtain ⟨_, _, _, _, same, _⟩ := ratelimiter_ok_iff.mp hands
    cases same
  · cases hands

theorem mem_ratelimiter (converts : settings opts optionKinds = .ok given)
    (lookup : opts.lookup "set_ratelimiter" = some (.string text)) {a b : Int64} {c : Int32} :
    .ratelimiter a b c ∈ given ↔ ratelimiter text = .ok (.ratelimiter a b c) := by
  rw [mem_settings converts]
  constructor
  · rintro ⟨entry, _, v, found, hands⟩
    obtain ⟨name, text', rfl, converts'⟩ := setting_ratelimiter hands
    rw [name, lookup] at found
    cases found
    exact converts'
  · intro hands
    exact ⟨("set_ratelimiter", .string), by simp [optionKinds], _, lookup, hands⟩

theorem mem_levelMultipliers (converts : settings opts optionKinds = .ok given)
    (lookup : opts.lookup "set_max_bytes_for_level_multiplier_additional" = some (.string text))
    {vs : List Int32} :
    .levelMultipliers vs ∈ given ↔ multiplierAdditional text = .ok (.levelMultipliers vs) := by
  rw [mem_settings converts]
  constructor
  · rintro ⟨entry, _, v, found, hands⟩
    obtain ⟨name, text', rfl, converts'⟩ := setting_levelMultipliers hands
    rw [name, lookup] at found
    cases found
    exact converts'
  · intro hands
    exact ⟨("set_max_bytes_for_level_multiplier_additional", .string), by simp [optionKinds], _,
      lookup, hands⟩

theorem setting_listed (listed : StringsListed opts) {name : String} {v : OptionValue}
    (lookup : opts.lookup name = some v) : ∃ s, setting name v = .ok s := by
  unfold setting
  split
  · obtain ⟨ns, multipliers⟩ := listed.2 _ lookup
    obtain ⟨vs, same⟩ := widened_of_fitting toInt_ofInt_i32 multipliers.2
    exact ⟨_, (levelMultipliers_hands multipliers).mpr same⟩
  · obtain ⟨ratePerSec, refillPeriod, fairness, limit⟩ := listed.1 _ lookup
    have ⟨_, _, rateFits, refillFits, fairnessFits, _⟩ := limit
    refine ⟨.ratelimiter (Int64.ofInt ratePerSec) (Int64.ofInt refillPeriod)
      (Int32.ofInt fairness), (ratelimiter_hands limit).mpr ⟨?_, ?_, ?_⟩⟩
    · exact toInt_ofInt_i64 ratePerSec rateFits
    · exact toInt_ofInt_i64 refillPeriod refillFits
    · exact toInt_ofInt_i32 fairness fairnessFits
  · exact ⟨_, rfl⟩

theorem settings_listed (listed : StringsListed opts) :
    ∃ given, settings opts optionKinds = .ok given := by
  cases converts : settings opts optionKinds with
  | ok given => exact ⟨given, rfl⟩
  | error stop =>
    obtain ⟨_, entry, _, v, lookup, dirty⟩ := settings_error_iff.mp converts
    obtain ⟨s, hands⟩ := setting_listed listed lookup
    rw [setting_error_iff.mpr ⟨rfl, dirty⟩] at hands
    cases hands

theorem options_convert_iff (opts : RockerOptions) : Converts opts ↔ StringsListed opts := by
  constructor
  · intro right
    cases converts : settings opts optionKinds with
    | error stop =>
      have panics := (settings_error_iff.mp converts).1
      rw [panics] at converts
      exact absurd converts right.calm
    | ok given =>
      constructor
      · intro text lookup
        obtain ⟨a, b, c, limit, _⟩ := right.rateLimit given converts text lookup
        exact ⟨a, b, c, limit⟩
      · intro text lookup
        obtain ⟨ns, multipliers, _⟩ := right.levelMultipliers given converts text lookup
        exact ⟨ns, multipliers⟩
  · intro listed
    constructor
    · obtain ⟨given, converts⟩ := settings_listed listed
      intro panics
      rw [converts] at panics
      cases panics
    · exact settings_listed
    · intro given converts text lookup
      obtain ⟨ratePerSec, refillPeriod, fairness, limit⟩ := listed.1 text lookup
      refine ⟨ratePerSec, refillPeriod, fairness, limit, ?_⟩
      intro a b c
      rw [mem_ratelimiter converts lookup, ratelimiter_hands limit]
    · intro given converts text lookup
      obtain ⟨ns, multipliers⟩ := listed.2 text lookup
      refine ⟨ns, multipliers, ?_⟩
      intro vs
      rw [mem_levelMultipliers converts lookup, levelMultipliers_hands multipliers]

/- A rate limiter with two numbers, as the options map of a call. -/
theorem two_numbers_panic : ∃ opts,
    decodeOptions (.map [(.atom "set_ratelimiter", .binary [49, 44, 50])]) = .ok opts ∧
      ¬ Converts opts := by
  refine ⟨[("set_ratelimiter", .string ['1', ',', '2']), ("create_if_missing", .bool true)],
    by decide, ?_⟩
  intro right
  exact right.calm rfl

end Conversion
end ExRocket
