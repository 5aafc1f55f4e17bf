import ExRocket.Nif.Term

/-! Options of a database or a column family: a map of atoms to values, decoded by the type
of the field each atom names, then handed to the setters of the store's options. Two of the
strings are comma-separated integers that are parsed on the way. -/
namespace ExRocket

open Rust

inductive OptionKind where
  | bool | i32 | u32 | i64 | u64 | usize | f64 | string

inductive OptionValue where
  | bool (b : Bool)
  | int (n : Int)
  | float (bits : UInt64)
  | string (text : Str)
  deriving DecidableEq

/- The fields of RockerOptions with their types, in the order of the struct, which is also
the order in which they are handed over. c_int, c_uint, c_double and size_t are i32, u32,
f64 and usize. -/
def optionKinds : List (String × OptionKind) :=
  [("create_if_missing", .bool), ("create_missing_column_families", .bool),
    ("set_error_if_exists", .bool), ("set_paranoid_checks", .bool), ("increase_parallelism", .i32),
    ("optimize_level_style_compaction", .usize), ("optimize_universal_style_compaction", .usize),
    ("set_compression_type", .string), ("set_bottommost_compression_type", .string),
    ("set_zstd_max_train_bytes", .i32), ("set_compaction_readahead_size", .usize),
    ("set_level_compaction_dynamic_level_bytes", .bool), ("set_optimize_filters_for_hits", .bool),
    ("set_delete_obsolete_files_period_micros", .u64), ("set_max_open_files", .i32),
    ("set_max_file_opening_threads", .i32), ("set_use_fsync", .bool), ("set_db_log_dir", .string),
    ("set_log_level", .string), ("set_bytes_per_sync", .u64), ("set_wal_bytes_per_sync", .u64),
    ("set_writable_file_max_buffer_size", .u64), ("set_allow_concurrent_memtable_write", .bool),
    ("set_enable_write_thread_adaptive_yield", .bool),
    ("set_max_sequential_skip_in_iterations", .u64), ("set_use_direct_reads", .bool),
    ("set_use_direct_io_for_flush_and_compaction", .bool), ("set_is_fd_close_on_exec", .bool),
    ("set_table_cache_num_shard_bits", .i32), ("set_target_file_size_multiplier", .i32),
    ("set_min_write_buffer_number", .i32), ("set_max_write_buffer_number", .i32),
    ("set_write_buffer_size", .usize), ("set_db_write_buffer_size", .usize),
    ("set_max_bytes_for_level_base", .u64), ("set_max_bytes_for_level_multiplier", .f64),
    ("set_max_manifest_file_size", .usize), ("set_target_file_size_base", .u64),
    ("set_min_write_buffer_number_to_merge", .i32),
    ("set_level_zero_file_num_compaction_trigger", .i32),
    ("set_level_zero_slowdown_writes_trigger", .i32), ("set_level_zero_stop_writes_trigger", .i32),
    ("set_compaction_style", .string), ("set_unordered_write", .bool),
    ("set_max_subcompactions", .u32), ("set_max_background_jobs", .i32),
    ("set_disable_auto_compactions", .bool), ("set_memtable_huge_page_size", .usize),
    ("set_max_successive_merges", .usize), ("set_bloom_locality", .u32),
    ("set_inplace_update_support", .bool), ("set_inplace_update_locks", .usize),
    ("set_max_bytes_for_level_multiplier_additional", .string),
    ("set_skip_checking_sst_file_sizes_on_db_open", .bool),
    ("set_max_write_buffer_size_to_maintain", .i64), ("set_enable_pipelined_write", .bool),
    ("set_min_level_to_compress", .i32), ("set_report_bg_io_stats", .bool),
    ("set_max_total_wal_size", .u64), ("set_wal_recovery_mode", .string),
    ("enable_statistics", .bool), ("set_stats_dump_period_sec", .u32),
    ("set_stats_persist_period_sec", .u32), ("set_advise_random_on_open", .bool),
    ("set_use_adaptive_mutex", .bool), ("set_num_levels", .i32),
    ("set_memtable_prefix_bloom_ratio", .f64), ("set_max_compaction_bytes", .u64),
    ("set_wal_dir", .string), ("set_wal_ttl_seconds", .u64), ("set_wal_size_limit_mb", .u64),
    ("set_manifest_preallocation_size", .usize), ("set_skip_stats_update_on_db_open", .bool),
    ("set_keep_log_file_num", .usize), ("set_allow_mmap_writes", .bool),
    ("set_allow_mmap_reads", .bool), ("set_manual_wal_flush", .bool), ("set_atomic_flush", .bool),
    ("set_ratelimiter", .string), ("set_max_log_file_size", .usize),
    ("set_log_file_time_to_roll", .usize), ("set_recycle_log_file_num", .usize),
    ("set_soft_pending_compaction_bytes_limit", .usize),
    ("set_hard_pending_compaction_bytes_limit", .usize), ("set_arena_block_size", .usize),
    ("set_dump_malloc_stats", .bool), ("set_memtable_whole_key_filtering", .bool),
    ("set_enable_blob_files", .bool), ("set_min_blob_size", .u64), ("set_blob_file_size", .u64),
    ("set_blob_compression_type", .string), ("set_enable_blob_gc", .bool),
    ("set_blob_gc_age_cutoff", .f64), ("set_blob_gc_force_threshold", .f64),
    ("set_blob_compaction_readahead_size", .u64), ("set_prefix_extractor_prefix_length", .usize),
    ("merge_operator", .string)]

def decodeInt (low high : Int) : Term → NifResult OptionValue
  | .integer n => if low ≤ n ∧ n < high then return .int n else throw .badarg
  | _ => throw .badarg

def OptionKind.decode : OptionKind → Term → NifResult OptionValue
  | .bool, .atom "true" => return .bool true
  | .bool, .atom "false" => return .bool false
  | .i32, t => decodeInt (-2 ^ 31) (2 ^ 31) t
  | .u32, t => decodeInt 0 (2 ^ 32) t
  | .i64, t => decodeInt (-2 ^ 63) (2 ^ 63) t
  | .u64, t | .usize, t => decodeInt 0 (2 ^ 64) t
  | .f64, .float bits => return .float bits
  | .string, t => return .string (← t.decodeString)
  | _, _ => throw .badarg

/-- The options that are given, the latest first. -/
abbrev RockerOptions := List (String × OptionValue)

def defaultOptions : RockerOptions := [("create_if_missing", .bool true)]

def decodeOption (opts : RockerOptions) (entry : Term × Term) : NifResult RockerOptions := do
  let name ← entry.1.atomToString
  match optionKinds.lookup name with
  | some kind => return (name, ← kind.decode entry.2) :: opts
  | none => return opts

def decodeOptions : Term → NifResult RockerOptions
  | .map pairs => pairs.foldlM decodeOption defaultOptions
  | _ => throw .badarg

/-- What one setter of the store's options receives. Strings that stand for an enumeration
constant are kept as they are. -/
inductive Setting where
  | value (name : String) (v : OptionValue)
  | levelMultipliers (values : List Int32)
  | ratelimiter (ratePerSec refillPeriod : Int64) (fairness : Int32)

def multiplierAdditional (text : Str) : NifResult Setting := do
  let v ← (text.splitOn ',').mapM fun part => unwrap (parseI32 (trim part))
  return .levelMultipliers v

def ratelimiter (text : Str) : NifResult Setting := do
  let v ← (text.splitOn ',').mapM fun part => unwrap (parseI64 (trim part))
  return .ratelimiter (← indexed v 0) (← indexed v 1) (← indexed v 2).toInt32

def setting : String → OptionValue → NifResult Setting
  | "set_max_bytes_for_level_multiplier_additional", .string text => multiplierAdditional text
  | "set_ratelimiter", .string text => ratelimiter text
  | name, v => return .value name v

/-- `Options::from(opts)`, up to the setters themselves. -/
def settings (opts : RockerOptions) : List (String × OptionKind) → NifResult (List Setting)
  | [] => return []
  | (name, _) :: names =>
    match opts.lookup name with
    | some v => do
      let first ← setting name v
      let rest ← settings opts names
      return first :: rest
    | none => settings opts names

def PartsParse {α : Type} (parse : Str → Option α) (text : Str) : Prop :=
  ∀ part ∈ text.splitOn ',', (parse (trim part)).isSome

def SettingParses : String → OptionValue → Prop
  | "set_max_bytes_for_level_multiplier_additional", .string text => PartsParse parseI32 text
  | "set_ratelimiter", .string text =>
    PartsParse parseI64 text ∧ 3 ≤ (text.splitOn ',').length
  | _, _ => True

def OptionsParse (opts : RockerOptions) : Prop :=
  ∀ entry ∈ optionKinds, ∀ v, opts.lookup entry.1 = some v → SettingParses entry.1 v

/-- Unwrapping the parts one by one panics exactly when one of them does not parse. -/
theorem mapM_unwrap {α β : Type} (parse : α → Option β) (xs : List α) :
    (∃ ys, xs.mapM (fun x => unwrap (parse x)) = .ok ys ∧ ys.length = xs.length ∧
        ∀ x ∈ xs, (parse x).isSome) ∨
      (xs.mapM (fun x => unwrap (parse x)) = .error .panic ∧ ¬ ∀ x ∈ xs, (parse x).isSome) := by
  induction xs with
  | nil => exact .inl ⟨[], rfl, rfl, nofun⟩
  | cons x xs ih =>
    rw [List.mapM_cons]
    cases first : parse x with
    | none => exact .inr ⟨rfl, fun all => by simpa [first] using all x⟩
    | some y =>
      rcases ih with ⟨ys, rest, length, all⟩ | ⟨rest, some_⟩
      · rw [rest]
        refine .inl ⟨y :: ys, rfl, by simp [length], ?_⟩
        intro z member
        rcases List.mem_cons.mp member with rfl | member
        · simp [first]
        · exact all z member
      · rw [rest]
        exact .inr ⟨rfl, fun all => some_ fun z member => all z (List.mem_cons_of_mem x member)⟩

theorem multiplierAdditional_error_iff {text : Str} {stop : Stop} :
    multiplierAdditional text = .error stop ↔ stop = .panic ∧ ¬ PartsParse parseI32 text := by
  rw [multiplierAdditional]
  rcases mapM_unwrap (fun part => parseI32 (trim part)) (text.splitOn ',') with
    ⟨ys, parsed, _, all⟩ | ⟨panics, some_⟩
  · have clean : PartsParse parseI32 text := all
    rw [parsed]
    simp [clean, bind, Except.bind, pure, Except.pure]
  · have dirty : ¬ PartsParse parseI32 text := some_
    rw [panics]
    simp [dirty, bind, Except.bind, eq_comm]

theorem ratelimiter_error_iff {text : Str} {stop : Stop} :
    ratelimiter text = .error stop ↔
      stop = .panic ∧ ¬ (PartsParse parseI64 text ∧ 3 ≤ (text.splitOn ',').length) := by
  rw [ratelimiter]
  rcases mapM_unwrap (fun part => parseI64 (trim part)) (text.splitOn ',') with
    ⟨ys, parsed, length, all⟩ | ⟨panics, some_⟩
  · have clean : PartsParse parseI64 text := all
    rw [parsed, ← length]
    simp only [clean, true_and]
    rcases ys with _ | ⟨a, _ | ⟨b, _ | ⟨d, ys⟩⟩⟩ <;>
      simp [bind, Except.bind, pure, Except.pure, eq_comm]
  · have dirty : ¬ PartsParse parseI64 text := some_
    rw [panics]
    simp [dirty, bind, Except.bind, eq_comm]

theorem setting_error_iff {name : String} {v : OptionValue} {stop : Stop} :
    setting name v = .error stop ↔ stop = .panic ∧ ¬ SettingParses name v := by
  unfold setting SettingParses
  split
  · exact multiplierAdditional_error_iff
  · exact ratelimiter_error_iff
  · simp [pure, Except.pure]

theorem settings_error_iff {opts : RockerOptions} {names : List (String × OptionKind)}
    {stop : Stop} :
    settings opts names = .error stop ↔ stop = .panic ∧
      ∃ entry ∈ names, ∃ v, opts.lookup entry.1 = some v ∧ ¬ SettingParses entry.1 v := by
  induction names with
  | nil => simp [settings, pure, Except.pure]
  | cons entry names ih =>
    obtain ⟨name, kind⟩ := entry
    rw [settings]
    cases given : opts.lookup name with
    | none => simp [ih, given]
    | some v =>
      have last : ∀ first, (settings opts names >>= fun rest =>
          (pure (first :: rest) : NifResult (List Setting))) = .error stop ↔
            settings opts names = .error stop := by
        intro first
        simp [bind_error_iff, pure, Except.pure]
      simp only [bind_error_iff (x := setting name v), last, setting_error_iff, ih,
        List.mem_cons, exists_eq_or_imp, given, Option.some.injEq, exists_eq_left']
      cases parsed : setting name v with
      | ok first =>
        have clean : SettingParses name v := by
          by_contra dirty
          have fails := setting_error_iff.mpr ⟨rfl, dirty⟩
          rw [parsed] at fails
          cases fails
        simp [clean]
      | error e =>
        have fails := setting_error_iff.mp parsed
        simp [fails.2]

structure RockerReadOptions where
  iterateUpperBound : Option Str
  iterateLowerBound : Option Str

def decodeReadOption (opts : RockerReadOptions) (entry : Term × Term) :
    NifResult RockerReadOptions := do
  match ← entry.1.atomToString with
  | "iterate_upper_bound" => return { opts with iterateUpperBound := ← entry.2.decodeString }
  | "iterate_lower_bound" => return { opts with iterateLowerBound := ← entry.2.decodeString }
  | _ => return opts

def decodeReadOptions : Term → NifResult RockerReadOptions
  | .map pairs => pairs.foldlM decodeReadOption ⟨none, none⟩
  | _ => throw .badarg

/-- The bounds of the store's read options: inclusive below, exclusive above. -/
structure ReadOptions where
  lower : Option Bytes
  upper : Option Bytes

namespace ReadOptions

def default : ReadOptions := { lower := none, upper := none }

def setIterateUpperBound (opts : ReadOptions) (bound : Bytes) : ReadOptions :=
  { opts with upper := some bound }

/-- A range sets both bounds; one that it leaves open is cleared. -/
def setIterateRange (_opts : ReadOptions) (first last : Option Bytes) : ReadOptions :=
  { lower := first, upper := last }

/- Both options go to the setter of the upper bound, the lower one last. -/
def ofRocker (opts : RockerReadOptions) : ReadOptions :=
  let readOpts := default
  let readOpts := match opts.iterateUpperBound with
    | some bound => readOpts.setIterateUpperBound (intoBytes bound)
    | none => readOpts
  match opts.iterateLowerBound with
  | some bound => readOpts.setIterateUpperBound (intoBytes bound)
  | none => readOpts

end ReadOptions
end ExRocket
