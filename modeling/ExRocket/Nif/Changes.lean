import ExRocket.Nif.Batch

/-! What a call asks of the store, and what becomes of it. A call asks for one change at most. If
the store makes it, the call reports no failure; if the store refuses it, the call fails, and what
it leaves is what the refusal leaves. -/
namespace ExRocket

open Rust

variable {R : RocksDb}

def inFamily (db : R.Store) (cfName : Term) (op : R.Cf → WriteOp R.Cf) :
    Option (Change R.Cf R.Opts) := do
  let name ← cfName.decodeString.toOption
  let cf ← R.cfHandle db name
  return .issue (op cf)

variable (rt : Rustler)

/-- What a call asks for, if it gets as far as asking. -/
def Call.change (db : R.Store) : Call → Option (Change R.Cf R.Opts)
  | .put key val => some (.issue (.put none (key.lazyBinary rt) (val.lazyBinary rt)))
  | .delete key => some (.issue (.delete none (key.lazyBinary rt)))
  | .merge key operand => some (.issue (.merge none (key.lazyBinary rt) (operand.lazyBinary rt)))
  | .mergeCf cfName key operand =>
    inFamily db cfName fun cf => .merge (some cf) (key.lazyBinary rt) (operand.lazyBinary rt)
  | .writeBatch txs => do
    let batch ← (batchRecords rt db txs []).toOption
    if batch.length > 0 then some (.write batch) else none
  | .createCf cfName opts => do
    let name ← cfName.decodeString.toOption
    let opts ← (decodeOptions opts).toOption
    let dbOpts ← (settings opts optionKinds >>= R.options).toOption
    return .createCf name dbOpts
  | .dropCf cfName => do
    let name ← cfName.decodeString.toOption
    return .dropCf name
  | .putCf cfName key val =>
    inFamily db cfName fun cf => .put (some cf) (key.lazyBinary rt) (val.lazyBinary rt)
  | .deleteCf cfName key => inFamily db cfName fun cf => .delete (some cf) (key.lazyBinary rt)
  | .deleteRange keyFrom keyTo =>
    some (.write [.deleteRange none (keyFrom.lazyBinary rt) (keyTo.lazyBinary rt)])
  | .deleteRangeCf cfName keyFrom keyTo =>
    inFamily db cfName fun cf =>
      .deleteRange (some cf) (keyFrom.lazyBinary rt) (keyTo.lazyBinary rt)
  | _ => none

/-- The functions that take the read guard and only read, and those on snapshots and
iterators. The deletion in a family also takes the read guard, but it writes. -/
def Call.reads : Call → Bool
  | .put .. | .delete .. | .merge .. | .mergeCf .. | .writeBatch .. | .createCf .. | .dropCf ..
  | .putCf .. | .deleteCf .. | .deleteRange .. | .deleteRangeCf .. | .createCheckpoint .. => false
  | _ => true

/-- badarg, a panic, or an error tuple. -/
def Reply.failed : Reply → Bool
  | .term (.tuple (.atom "error" :: _)) => true
  | .term _ => false
  | .badarg | .panicked => true

variable {rt}

theorem stop_failed (stop : Stop) : stop.reply.failed = true := by
  cases stop <;> rfl

@[simp] theorem readSnapshot_handle (w : World R) (resource : Term)
    (body : R.Store → R.Snap → NifResult (Made R)) :
    (w.readSnapshot resource body).2.handle = w.handle := by
  apply World.decoded_handle
  intro id
  split
  · rfl
  · exact World.lockSnapshot_handle w id _

theorem step_reads (rt : Rustler) (w : World R) {call : Call} (reads : call.reads = true) :
    (w.step rt call).2.handle = w.handle := by
  cases call with
  | put | delete | merge | mergeCf | writeBatch | createCf | dropCf | putCf | deleteCf
  | deleteRange | deleteRangeCf | createCheckpoint => cases reads
  | next resource =>
    simp only [World.step, World.next]
    split <;> simp
  | _ =>
    simp [World.step, World.latestSequenceNumber, World.getDbPath, World.get, World.iterator,
      World.iteratorRange, World.prefixIterator, World.getCf, World.iteratorCf,
      World.prefixIteratorCf, World.multiGet, World.multiGetCf, World.keyMayExist,
      World.keyMayExistCf, World.snapshot, World.snapshotGet, World.snapshotMultiGet,
      World.snapshotIterator, World.createBackup,
      World.snapshotGetCf, World.snapshotMultiGetCf, World.snapshotIteratorCf]

/-- Nothing is asked, or the handle is poisoned, or the store does what it is asked, or it
refuses. -/
inductive Outcome (handle : DbResource R) (change : Option (Change R.Cf R.Opts)) (failed : Bool)
    (db : R.Store) : Prop where
  | unasked : change = none → db = handle.db → Outcome handle change failed db
  | poisoned : handle.poisoned = true → failed = true → db = handle.db →
      Outcome handle change failed db
  | accepted {asked : Change R.Cf R.Opts} : change = some asked → failed = false →
      R.answer handle.db asked = .ok db → Outcome handle change failed db
  | refused {asked : Change R.Cf R.Opts} {e : Str} : change = some asked → failed = true →
      R.answer handle.db asked = .error e → db = R.refused handle.db asked →
      Outcome handle change failed db

/-- A body that returns has asked for this, and one that does not has asked for nothing. -/
structure Asks (body : R.Store → NifResult (Term × R.Store)) (handle : DbResource R)
    (change : Option (Change R.Cf R.Opts)) : Prop where
  returns : ∀ t db, body handle.db = .ok (t, db) →
    Outcome handle change (Reply.term t).failed db
  stops : ∀ stop, body handle.db = .error stop → change = none

/-- The outcome of a call, by what it replies and leaves. -/
abbrev Ends (w : World R) (result : Reply × World R) (change : Option (Change R.Cf R.Opts)) :
    Prop :=
  Outcome w.handle change result.1.failed result.2.handle.db

theorem done_asks {handle : DbResource R} {body : R.Store → NifResult (Term × R.Store)}
    {change : Change R.Cf R.Opts} (asks : body handle.db = .ok (done handle.db change)) :
    Asks body handle (some change) := by
  constructor
  · intro t db returns
    rw [asks] at returns
    rcases done_cases returns with ⟨rfl, answers⟩ | ⟨e, rfl, refuses, left⟩
    · exact .accepted rfl rfl answers
    · exact .refused rfl rfl refuses left
  · intro stop fails
    rw [asks] at fails
    cases fails

theorem write_ends {w : World R} {body : R.Store → NifResult (Term × R.Store)}
    {change : Option (Change R.Cf R.Opts)} (asks : Asks body w.handle change) :
    Ends w (w.write body) change := by
  rcases w.write_cases body with
    ⟨poisoned, result⟩ | ⟨_, ⟨t, db, returns, result⟩ | ⟨fails, result⟩ | ⟨fails, result⟩⟩
  all_goals rw [result]
  · exact .poisoned poisoned rfl rfl
  · exact asks.returns t db returns
  · exact .unasked (asks.stops _ fails) rfl
  · exact .unasked (asks.stops _ fails) rfl

theorem writeShared_ends {w : World R} {body : R.Store → NifResult (Term × R.Store)}
    {change : Option (Change R.Cf R.Opts)} (asks : Asks body w.handle change) :
    Ends w (w.writeShared body) change := by
  rcases w.writeShared_cases body with
    ⟨poisoned, result⟩ | ⟨_, ⟨t, db, returns, result⟩ | ⟨stop, fails, result⟩⟩
  all_goals rw [result]
  · exact .poisoned poisoned rfl rfl
  · exact asks.returns t db returns
  · exact .unasked (asks.stops _ fails) rfl

theorem decoded_ends {α : Type} {w : World R} (argument : NifResult α)
    {body : α → Reply × World R} {change : α → Option (Change R.Cf R.Opts)}
    (ends : ∀ value, Ends w (body value) (change value)) :
    Ends w (w.decoded argument body) (argument.toOption >>= change) := by
  cases argument with
  | ok value => exact ends value
  | error stop => exact .unasked rfl rfl

theorem reads_ends {w : World R} {call : Call} (reads : call.reads = true) :
    Ends w (w.step rt call) none :=
  .unasked rfl (by rw [step_reads rt w reads])

def familyWrite (name : Str) (op : R.Cf → WriteOp R.Cf) (db : R.Store) :
    NifResult (Term × R.Store) := do
  let cf ← unwrap (R.cfHandle db name)
  return done db (.issue (op cf))

/-- A write to a named family, which may be missing. -/
theorem family_asks {handle : DbResource R} {name : Str} (op : R.Cf → WriteOp R.Cf)
    {body : R.Store → NifResult (Term × R.Store)}
    (known : ∀ cf, R.cfHandle handle.db name = some cf →
      body handle.db = .ok (done handle.db (.issue (op cf))))
    (unknown : R.cfHandle handle.db name = none → ∀ t db, body handle.db = .ok (t, db) →
      db = handle.db) :
    Asks body handle (R.cfHandle handle.db name >>= fun cf => some (.issue (op cf))) := by
  cases family : R.cfHandle handle.db name with
  | none => exact ⟨fun t db returns => .unasked rfl (unknown family t db returns), fun _ _ => rfl⟩
  | some cf => exact done_asks (known cf family)

theorem familyWrite_asks (handle : DbResource R) (name : Str) (op : R.Cf → WriteOp R.Cf) :
    Asks (familyWrite name op) handle
      (R.cfHandle handle.db name >>= fun cf => some (.issue (op cf))) := by
  apply family_asks op
  · intro cf family
    rw [familyWrite, family]
    rfl
  · intro family t db returns
    obtain ⟨cf, known, _⟩ := bind_ok returns
    rw [unwrap_ok known] at family
    cases family

theorem writeBatch_change {db : R.Store} {txs : Term} {batch : List (WriteOp R.Cf)}
    (records : batchRecords rt db txs [] = .ok batch) :
    Call.change rt db (.writeBatch txs) =
      if batch.length > 0 then some (.write batch) else none := by
  rw [Call.change, records]
  rfl

theorem applyBatch_error {db : R.Store} {txs : Term} {stop : Stop}
    (fails : applyBatch rt txs db = .error stop) :
    Call.change rt db (.writeBatch txs) = none := by
  cases records : batchRecords rt db txs [] with
  | error _ =>
    rw [Call.change, records]
    rfl
  | ok batch =>
    rcases bind_error_iff.mp fails with improper | ⟨iter, list, rest⟩
    · have same : batch = [] := batchRecords_tail (by rintro _ _ rfl; cases improper) records
      rw [writeBatch_change records, same]
      rfl
    · rcases bind_error_iff.mp rest with unread | ⟨_, _, reply⟩
      · rw [decodeList_ok list, records] at unread
        cases unread
      · split at reply
        · split at reply <;> cases reply
        · cases reply

theorem applyBatch_asks (handle : DbResource R) (txs : Term) :
    Asks (applyBatch rt txs) handle (Call.change rt handle.db (.writeBatch txs)) := by
  constructor
  · intro t db returns
    obtain ⟨batch, records, reply⟩ := applyBatch_ok returns
    rw [writeBatch_change records]
    rcases reply with ⟨rfl, ⟨rfl, rfl⟩ | ⟨some, written⟩⟩ | ⟨e, rfl, some, refuses, left⟩
    · exact .unasked rfl rfl
    · rw [if_pos (List.length_pos_iff.mpr some)]
      exact .accepted rfl rfl written
    · rw [if_pos (List.length_pos_iff.mpr some)]
      exact .refused rfl rfl refuses left
  · intro stop fails
    rw [applyBatch_error fails]

theorem createCf_asks (handle : DbResource R) (name : Str) (opts : RockerOptions) :
    Asks (R := R) (fun db => do
        let dbOpts ← R.options (← settings opts optionKinds)
        return done db (.createCf name dbOpts)) handle
      ((settings opts optionKinds >>= R.options).toOption >>= fun dbOpts =>
        some (.createCf name dbOpts)) := by
  have body : (do
      let dbOpts ← R.options (← settings opts optionKinds)
      return done handle.db (.createCf name dbOpts) : NifResult (Term × R.Store)) =
      ((settings opts optionKinds >>= R.options) >>= fun dbOpts =>
        pure (done handle.db (.createCf name dbOpts))) := (bind_assoc _ _ _).symm
  cases made : settings opts optionKinds >>= R.options with
  | ok dbOpts =>
    rw [made] at body
    exact done_asks body
  | error stop =>
    rw [made] at body
    refine ⟨fun t db returns => ?_, fun _ _ => rfl⟩
    rw [body] at returns
    cases returns

/-- What becomes of every call. -/
theorem step_ends (rt : Rustler) (w : World R) (call : Call) :
    Ends w (w.step rt call) (call.change rt w.handle.db) := by
  cases call with
  | put | delete | merge | deleteRange => exact write_ends (done_asks rfl)
  | writeBatch txs => exact write_ends (applyBatch_asks _ txs)
  | dropCf => exact decoded_ends _ fun name => write_ends (done_asks rfl)
  | createCf =>
    exact decoded_ends _ fun name => decoded_ends _ fun opts =>
      write_ends (createCf_asks _ name opts)
  | putCf =>
    exact decoded_ends _ fun name => write_ends
      (familyWrite_asks _ name fun cf => .put (some cf) _ _)
  | deleteCf =>
    exact decoded_ends _ fun name => writeShared_ends
      (familyWrite_asks _ name fun cf => .delete (some cf) _)
  | mergeCf | deleteRangeCf =>
    refine decoded_ends _ fun name => write_ends (family_asks _ ?_ ?_)
    · intro cf family
      simp only [family]
      rfl
    · intro family t db returns
      simp only [family] at returns
      cases returns
      rfl
  | createCheckpoint path =>
    have ends : Ends w (w.createCheckpoint path)
        (path.decodeString.toOption >>= fun _ => none) := by
      refine decoded_ends _ fun path => write_ends ⟨fun t db returns => ?_, fun _ _ => rfl⟩
      obtain ⟨_, _, rest⟩ := bind_ok returns
      split at rest <;>
        cases rest <;>
        exact .unasked rfl rfl
    rw [Option.bind_eq_bind, Option.bind_fun_none] at ends
    exact ends
  | _ => exact reads_ends rfl

end ExRocket
