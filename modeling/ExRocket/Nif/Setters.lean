import ExRocket.Nif.OptionMaps
import ExRocket.Nif.OptionStrings

/-! From a map of options to the setters of the store's options. Strings that name a constant may
be spelled in upper or lower case and padded; three names choose a merge operator. -/
namespace ExRocket

open Rust

inductive DBCompressionType where
  | none | snappy | zlib | bz2 | lz4 | lz4hc | zstd
  deriving DecidableEq, Repr

inductive LogLevel where
  | debug | info | warn | error | fatal | header
  deriving DecidableEq, Repr

inductive DBCompactionStyle where
  | level | universal | fifo
  deriving DecidableEq, Repr

inductive DBRecoveryMode where
  | tolerateCorruptedTailRecords | absoluteConsistency | pointInTime | skipAnyCorruptedRecord
  deriving DecidableEq, Repr

inductive MergeOperator where
  | counter | erlang | bitset
  deriving DecidableEq, Repr

/- A letter of A to Z, or the Kelvin sign, which is a k in lower case. Any other character that is
not an ASCII one is not one in lower case either, so that no text with it is the name of a
constant. -/
def lowerChar (c : Char) : Char :=
  if 'A' ≤ c ∧ c ≤ 'Z' then Char.ofNat (c.toNat + 32)
  else if c.toNat = 0x212A then 'k' else c

/-- `.trim().to_lowercase()`, as far as it is compared with the names of constants. -/
def spelled (text : Str) : Str := (trim text).map lowerChar

/-- `match text.trim().to_lowercase().as_ref() { .. }` -/
def constant {α : Type} (names : List (String × α)) (fallback : α) (text : Str) : α :=
  ((names.find? fun entry => entry.1.toList == spelled text).map Prod.snd).getD fallback

def compressionType : Str → DBCompressionType :=
  constant [("none", .none), ("snappy", .snappy), ("zlib", .zlib), ("bz2", .bz2), ("lz4", .lz4),
    ("lz4hc", .lz4hc), ("zstd", .zstd)] .none

def logLevel : Str → LogLevel :=
  constant [("debug", .debug), ("info", .info), ("warn", .warn), ("error", .error),
    ("fatal", .fatal), ("header", .header)] .error

def compactionStyle : Str → DBCompactionStyle :=
  constant [("level", .level), ("universal", .universal), ("fifo", .fifo)] .level

def recoveryMode : Str → DBRecoveryMode :=
  constant [("toleratecorruptedtailrecords", .tolerateCorruptedTailRecords),
    ("absoluteconsistency", .absoluteConsistency), ("pointintime", .pointInTime),
    ("skipanycorruptedrecord", .skipAnyCorruptedRecord)] .pointInTime

/-- The name of an operator, which is also that of its function, is neither trimmed nor put in
lower case. -/
def mergeOperator (text : Str) : Option MergeOperator :=
  if text = "counter_merge_operator".toList then some .counter
  else if text = "erlang_merge_operator".toList then some .erlang
  else if text = "bitset_merge_operator".toList then some .bitset
  else none

/-- One call of a setter of the store's options. -/
inductive Setter where
  | value (name : String) (v : OptionValue)
  | compressionType (name : String) (t : DBCompressionType)
  | logLevel (l : LogLevel)
  | compactionStyle (s : DBCompactionStyle)
  | recoveryMode (m : DBRecoveryMode)
  | enableStatistics
  | levelMultipliers (values : List Int32)
  | ratelimiter (ratePerSec refillPeriod : Int64) (fairness : Int32)
  | prefixExtractor (length : Int)
  | mergeOperator (operator : MergeOperator)

/-- The setter that a setting is for, if one is called at all. -/
def Setting.setter : Setting → Option Setter
  | .value "set_compression_type" (.string text) =>
    some (.compressionType "set_compression_type" (compressionType text))
  | .value "set_bottommost_compression_type" (.string text) =>
    some (.compressionType "set_bottommost_compression_type" (compressionType text))
  | .value "set_blob_compression_type" (.string text) =>
    some (.compressionType "set_blob_compression_type" (compressionType text))
  | .value "set_log_level" (.string text) => some (.logLevel (logLevel text))
  | .value "set_compaction_style" (.string text) => some (.compactionStyle (compactionStyle text))
  | .value "set_wal_recovery_mode" (.string text) => some (.recoveryMode (recoveryMode text))
  | .value "enable_statistics" (.bool enabled) => if enabled then some .enableStatistics else none
  | .value "set_prefix_extractor_prefix_length" (.int length) => some (.prefixExtractor length)
  | .value "merge_operator" (.string text) => (mergeOperator text).map .mergeOperator
  | .value name v => some (.value name v)
  | .levelMultipliers values => some (.levelMultipliers values)
  | .ratelimiter ratePerSec refillPeriod fairness =>
    some (.ratelimiter ratePerSec refillPeriod fairness)

/-- `Options::from(opts)`: the setters that are called, in their order. -/
def optionsFrom (opts : RockerOptions) : NifResult (List Setter) := do
  let given ← settings opts optionKinds
  return given.filterMap Setting.setter

/-- The option that a setting or a setter is for. -/
def Setting.option : Setting → String
  | .value name _ => name
  | .levelMultipliers _ => "set_max_bytes_for_level_multiplier_additional"
  | .ratelimiter .. => "set_ratelimiter"

def Setter.option : Setter → String
  | .value name _ | .compressionType name _ => name
  | .logLevel _ => "set_log_level"
  | .compactionStyle _ => "set_compaction_style"
  | .recoveryMode _ => "set_wal_recovery_mode"
  | .enableStatistics => "enable_statistics"
  | .levelMultipliers _ => "set_max_bytes_for_level_multiplier_additional"
  | .ratelimiter .. => "set_ratelimiter"
  | .prefixExtractor _ => "set_prefix_extractor_prefix_length"
  | .mergeOperator _ => "merge_operator"

theorem setting_option {name : String} {v : OptionValue} {s : Setting}
    (hands : setting name v = .ok s) : s.option = name := by
  unfold setting at hands
  split at hands
  · obtain ⟨vs, rfl, _⟩ := multiplierAdditional_ok_iff.mp hands
    rfl
  · obtain ⟨_, _, _, _, rfl, _⟩ := ratelimiter_ok_iff.mp hands
    rfl
  · cases hands
    rfl

theorem setter_option {s : Setting} {c : Setter} (calls : s.setter = some c) :
    c.option = s.option := by
  unfold Setting.setter at calls
  split at calls
  case h_7 enabled =>
    split at calls <;> cases calls
    rfl
  case h_9 text =>
    obtain ⟨operator, _, rfl⟩ := Option.map_eq_some_iff.mp calls
    rfl
  all_goals
    cases calls
    rfl

/-- What the map gives for an option, or what there is without it. -/
def Given (pairs : List (Term × Term)) (name : String) (kind : OptionKind)
    (v : OptionValue) : Prop :=
  (∃ t, (.atom name, t) ∈ pairs ∧ kind.decode t = .ok v) ∨
    (∀ t, (.atom name, t) ∉ pairs) ∧ defaultOptions.lookup name = some v

theorem decodeOption_lookup {opts opts' : RockerOptions} {entry : Term × Term}
    (decodes : decodeOption opts entry = .ok opts') {name : String} {kind : OptionKind}
    (known : optionKinds.lookup name = some kind) :
    (entry.1 = .atom name ∧ ∃ v, kind.decode entry.2 = .ok v ∧ opts'.lookup name = some v) ∨
      (entry.1 ≠ .atom name ∧ opts'.lookup name = opts.lookup name) := by
  obtain ⟨other, named, rest⟩ := bind_ok decodes
  rw [atomToString_ok named]
  by_cases same : other = name
  · subst same
    simp only [known] at rest
    obtain ⟨v, value, set⟩ := bind_ok rest
    cases set
    exact .inl ⟨rfl, v, value, by simp⟩
  · refine .inr ⟨by simpa using same, ?_⟩
    split at rest
    · obtain ⟨v, _, set⟩ := bind_ok rest
      cases set
      have apart : (name == other) = false := beq_eq_false_iff_ne.mpr (Ne.symm same)
      rw [List.lookup_cons, apart]
    · cases rest
      rfl

theorem decoded_lookup {pairs : List (Term × Term)} {opts opts' : RockerOptions}
    (decodes : pairs.foldlM decodeOption opts = .ok opts') (distinct : pairs.Pairwise OtherKey)
    {name : String} {kind : OptionKind} (known : optionKinds.lookup name = some kind)
    (v : OptionValue) :
    opts'.lookup name = some v ↔ (∃ t, (.atom name, t) ∈ pairs ∧ kind.decode t = .ok v) ∨
      (∀ t, (.atom name, t) ∉ pairs) ∧ opts.lookup name = some v := by
  induction pairs generalizing opts with
  | nil =>
    cases decodes
    simp
  | cons entry pairs ih =>
    rw [List.foldlM_cons] at decodes
    obtain ⟨mid, first, rest⟩ := bind_ok decodes
    obtain ⟨away, distinct'⟩ := List.pairwise_cons.mp distinct
    rw [ih rest distinct']
    rcases decodeOption_lookup first known with ⟨key, v', value, set⟩ | ⟨key, kept⟩
    · have absent : ∀ t, (.atom name, t) ∉ pairs := by
        intro t member
        exact away _ member key
      obtain ⟨k, t⟩ := entry
      subst key
      simp [absent, set, value]
    · obtain ⟨k, t⟩ := entry
      have apart : ∀ t', ((.atom name, t') : Term × Term) ≠ (k, t) := by
        rintro t' same
        exact key (Prod.mk.inj same).1.symm
      simp [kept, apart]

theorem settings_options {opts : RockerOptions} {names : List (String × OptionKind)}
    {given : List Setting} (converts : settings opts names = .ok given) :
    (given.map Setting.option).Sublist (names.map Prod.fst) := by
  induction names generalizing given with
  | nil =>
    cases converts
    exact .slnil
  | cons entry names ih =>
    obtain ⟨name, kind⟩ := entry
    rw [settings] at converts
    split at converts
    · obtain ⟨first, hands, rest⟩ := bind_ok converts
      obtain ⟨others, tail, same⟩ := bind_ok rest
      cases same
      rw [List.map_cons, List.map_cons, setting_option hands]
      exact (ih tail).cons_cons name
    · exact (ih converts).cons name

theorem setters_options (given : List Setting) :
    ((given.filterMap Setting.setter).map Setter.option).Sublist (given.map Setting.option) := by
  induction given with
  | nil => exact .slnil
  | cons s given ih =>
    cases calls : s.setter with
    | none =>
      rw [List.filterMap_cons_none calls]
      exact ih.cons s.option
    | some c =>
      rw [List.filterMap_cons_some calls, List.map_cons, List.map_cons, setter_option calls]
      exact ih.cons_cons s.option

theorem mem_of_lookup {name : String} {kind : OptionKind}
    (known : optionKinds.lookup name = some kind) : (name, kind) ∈ optionKinds := by
  obtain ⟨before, after, whole, _⟩ := List.lookup_eq_some_iff.mp known
  rw [whole]
  exact List.mem_append_right before List.mem_cons_self

theorem lookup_of_mem {entry : String × OptionKind} (member : entry ∈ optionKinds) :
    ∃ kind, optionKinds.lookup entry.1 = some kind := by
  rw [← Option.isSome_iff_exists, List.lookup_isSome_iff]
  exact ⟨entry, member, beq_self_eq_true entry.1⟩

/-- The setters are called in the order of the options, and just for the options that the map
gives or that are on without it, with the values that it gives. -/
theorem options_reach_setters {pairs : List (Term × Term)} {opts : RockerOptions}
    {calls : List Setter} (decodes : decodeOptions (.map pairs) = .ok opts)
    (distinct : (pairs.map Prod.fst).Nodup) (converts : optionsFrom opts = .ok calls) :
    (calls.map Setter.option).Sublist (optionKinds.map Prod.fst) ∧
      ∀ c, c ∈ calls ↔ ∃ name kind v s, optionKinds.lookup name = some kind ∧
        Given pairs name kind v ∧ setting name v = .ok s ∧ s.setter = some c := by
  obtain ⟨given, hands, same⟩ := bind_ok converts
  cases same
  constructor
  · exact (setters_options given).trans (settings_options hands)
  · intro c
    rw [List.mem_filterMap]
    constructor
    · rintro ⟨s, member, sets⟩
      obtain ⟨entry, field, v, found, hands'⟩ := (mem_settings hands).mp member
      obtain ⟨kind, known⟩ := lookup_of_mem field
      have gives := (decoded_lookup decodes (distinct_keys distinct) known v).mp found
      exact ⟨entry.1, kind, v, s, known, gives, hands', sets⟩
    · rintro ⟨name, kind, v, s, known, gives, hands', sets⟩
      have found := (decoded_lookup decodes (distinct_keys distinct) known v).mpr gives
      exact ⟨s, (mem_settings hands).mpr ⟨_, mem_of_lookup known, v, found, hands'⟩, sets⟩

/-- Statistics that are turned down ask for no setter. -/
theorem options_reach_setters_quiet :
    ([Setter.value "create_if_missing" (.bool true)].map Setter.option).Sublist
      (optionKinds.map Prod.fst) := by
  have decodes : decodeOptions (.map [(.atom "enable_statistics", .atom "false")]) =
      .ok [("enable_statistics", .bool false), ("create_if_missing", .bool true)] := by decide
  have converts :
      optionsFrom [("enable_statistics", .bool false), ("create_if_missing", .bool true)] =
        .ok [.value "create_if_missing" (.bool true)] := rfl
  exact (options_reach_setters decodes (by simp) converts).1

end ExRocket
