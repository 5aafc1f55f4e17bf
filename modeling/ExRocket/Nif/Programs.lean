import ExRocket.Library.Linearizable
import ExRocket.Nif.Guards

/-! The native functions step by step: each guard that is taken, each look at what it guards
and each change is a step of its own, and other calls come in between. Run alone, a program
does what the function does at once. -/
namespace ExRocket

open Locks Rust
open TwoPhase (Acquires Program)

/-- What is done under a guard: looks at what it guards, each at a moment of its own. -/
inductive Body (S α : Type) where
  | done (result : NifResult α)
  | look (next : S → Body S α)

namespace Body

variable {S α β : Type}

def bind : Body S α → (α → Body S β) → Body S β
  | done (.ok a), next => next a
  | done (.error stop), _ => done (.error stop)
  | look rest, next => look fun s => (rest s).bind next

instance : Monad (Body S) where
  pure a := done (.ok a)
  bind := bind

instance : MonadLift NifResult (Body S) where
  monadLift := done

/-- One look. -/
def see (read : S → α) : Body S α := look fun s => done (.ok (read s))

/-- What comes of it when nothing changes in between. -/
def eval : Body S α → S → NifResult α
  | done result, _ => result
  | look rest, s => (rest s).eval s

@[simp] theorem eval_pure (a : α) (s : S) : (pure a : Body S α).eval s = pure a := rfl

@[simp] theorem eval_lift (result : NifResult α) (s : S) :
    (liftM result : Body S α).eval s = result := rfl

@[simp] theorem eval_see (read : S → α) (s : S) : (see read).eval s = pure (read s) := rfl

@[simp] theorem eval_bind (body : Body S α) (next : α → Body S β) (s : S) :
    (body >>= next).eval s = body.eval s >>= fun a => (next a).eval s := by
  have unfolded : ∀ body : Body S α, (bind body next).eval s =
      body.eval s >>= fun a => (next a).eval s := by
    intro body
    induction body with
    | done result => cases result <;> rfl
    | look rest ih => exact ih s
  exact unfolded body

/-- `for elem in iter { .. }`, with a body that looks. -/
def forEach {σ : Type} (rt : Rustler) (step : σ → Term → Body S σ) : Term → σ → Body S σ
  | .cons head tail, acc => do
    let acc ← step acc head
    forEach rt step tail acc
  | .nil, acc => return acc
  | _, acc => do
    rt.improperTail
    return acc

theorem eval_forEach {σ : Type} (rt : Rustler) (step : σ → Term → Body S σ) (s : S) (t : Term)
    (acc : σ) : (forEach rt step t acc).eval s =
      t.forEach rt (fun acc elem => (step acc elem).eval s) acc := by
  fun_induction Term.forEach rt (fun acc elem => (step acc elem).eval s) t acc with
  | case1 acc head tail ih => simp [forEach, ih]
  | case2 acc => rfl
  | case3 t acc notCons notNil =>
    cases t with
    | cons head tail => exact absurd rfl (notCons head tail)
    | nil => exact absurd rfl notNil
    | _ => simp [forEach]

end Body
abbrev NifProgram (R : RocksDb) := Program (World R) Resource Reply

variable {R : RocksDb}

/-- One look at the world. -/
def peek (next : World R → NifProgram R) : NifProgram R := .act (fun w => w) next

/-- Return this reply, with nothing made and nothing changed. -/
def stopWith (reply : Reply) : NifProgram R := .finish fun w => (reply, w)

/-- Each look of the body sees what the guards guard at that moment. -/
def Body.program {S α : Type} (view : World R → S) (next : NifResult α → NifProgram R) :
    Body S α → NifProgram R
  | done result => next result
  | look rest => peek fun w => (rest (view w)).program view next

/-- Wrap what was made in a resource, and return. -/
def returning : NifResult (Made R) → NifProgram R
  | .ok made => .finish fun w => w.release made
  | .error stop => stopWith stop.reply

/-- Decode an argument before the function runs. -/
def decoding {α : Type} (argument : NifResult α) (body : α → NifProgram R) : NifProgram R :=
  match argument with
  | .ok value => body value
  | .error stop => stopWith stop.reply

/-- `self.db.read().unwrap()`: a poisoned lock ends the call. -/
def openDb (guard : Guard Resource) (body : NifProgram R) : NifProgram R :=
  .take guard (peek fun w => if w.handle.poisoned then stopWith .panicked else body)

def handleDb (w : World R) : R.Store := w.handle.db

/-- `let db_guard = resource.read();` -/
def reading (body : Body R.Store (Made R)) : NifProgram R :=
  openDb readGuard (body.program handleDb returning)

/-- One call that changes the store, and the reply to it. -/
def commit (write : R.Store → Term × R.Store) : NifProgram R :=
  .act (fun w => w.withDb (write w.handle.db).2) fun w => stopWith (.term (write w.handle.db).1)

/-- `let db_guard = resource.write();` A panic poisons the lock. -/
def writing (body : Body R.Store (R.Store → Term × R.Store)) : NifProgram R :=
  openDb writeGuard (body.program handleDb fun
    | .ok write => commit write
    | .error .badarg => stopWith .badarg
    | .error .panic => .act World.poison fun _ => stopWith .panicked)

/-- A function that writes under the read guard. -/
def writingShared (body : Body R.Store (R.Store → Term × R.Store)) : NifProgram R :=
  openDb readGuard (body.program handleDb fun
    | .ok write => commit write
    | .error stop => stopWith stop.reply)

def World.poisonSnapshot (id : Nat) (w : World R) : World R :=
  { w with snapshots := w.snapshots.modify id fun resource => { resource with poisoned := true } }

/-- The snapshot with this number, or another one if there is none. -/
def World.snapshotAt (w : World R) (id : Nat) (other : R.Snap) : R.Snap :=
  (w.snapshots[id]?.map SnapshotResource.snap).getD other

/-- `let snap_guard = resource.lock();` What the body looks at is chosen by the view. -/
def locking {S : Type} (id : Nat) (view : World R → R.Snap → S) (body : Body S (Made R)) :
    NifProgram R :=
  .take (snapGuard id) (peek fun w =>
    match w.snapshots[id]? with
    | none => stopWith .badarg
    | some resource =>
      if resource.poisoned then stopWith .panicked
      else body.program (fun w => view w (w.snapshotAt id resource.snap)) fun
        | .ok made => returning (.ok made)
        | .error .badarg => stopWith .badarg
        | .error .panic => .act (World.poisonSnapshot id) fun _ => stopWith .panicked)

def lockingSnapshot (id : Nat) (body : Body R.Snap (Made R)) : NifProgram R :=
  locking id (fun _ snap => snap) body

/-- `let db_guard = db_resource.read(); let snap_guard = snap_resource.lock();` -/
def readingSnapshot (resource : Term) (body : Body (R.Store × R.Snap) (Made R)) : NifProgram R :=
  decoding (snapshotAndDb resource) fun id =>
    openDb readGuard (locking id (fun w snap => (w.handle.db, snap)) body)

def World.advance (id : Nat) (step : R.Iter → Term × R.Iter) (w : World R) : World R :=
  { w with iterators := w.iterators.modify id fun resource =>
      { resource with iter := (step resource.iter).2 } }

/-- `let mut iter = resource.lock();` and one step of the iterator. -/
def advancing (id : Nat) (step : R.Iter → Term × R.Iter) : NifProgram R :=
  .take (iterGuard id) (peek fun w =>
    match w.iterators[id]? with
    | none => stopWith .badarg
    | some resource =>
      if resource.poisoned then stopWith .panicked
      else .act (World.advance id step) fun w =>
        match w.iterators[id]? with
        | none => stopWith .badarg
        | some resource => stopWith (.term (step resource.iter).1))

section Run

theorem run_stopWith (reply : Reply) (w : World R) : (stopWith reply).run w = (reply, w) := rfl

theorem run_program {S α : Type} (view : World R → S) (next : NifResult α → NifProgram R)
    (body : Body S α) (w : World R) :
    (body.program view next).run w = (next (body.eval (view w))).run w := by
  induction body with
  | done result => rfl
  | look rest ih => exact ih (view w)

theorem run_decoding {α : Type} (argument : NifResult α) {body : α → NifProgram R} {w : World R}
    {value : α → Reply × World R} (runs : ∀ a, (body a).run w = value a) :
    (decoding argument body).run w = w.decoded argument value := by
  cases argument with
  | ok a => exact runs a
  | error stop => rfl

theorem run_openDb (guard : Guard Resource) (body : NifProgram R) (w : World R) :
    (openDb guard body).run w = if w.handle.poisoned then (.panicked, w) else body.run w := by
  simp only [openDb, peek, Program.run]
  split <;> rfl

theorem run_reading {body : Body R.Store (Made R)} {plain : R.Store → NifResult (Made R)}
    (w : World R) (same : ∀ db, body.eval db = plain db) :
    (reading body).run w = w.read plain := by
  simp only [reading, run_openDb, run_program, World.read, handleDb, same]
  split
  · rfl
  · cases plain w.handle.db <;> rfl

theorem run_writing {body : Body R.Store (R.Store → Term × R.Store)}
    {plain : R.Store → NifResult (Term × R.Store)} (w : World R)
    (same : ∀ db, (do return (← body.eval db) db) = plain db) :
    (writing body).run w = w.write plain := by
  simp only [writing, run_openDb, run_program, World.write, handleDb, ← same]
  split
  · rfl
  · rcases body.eval w.handle.db with (_ | _) | write <;> rfl

theorem run_writingShared {body : Body R.Store (R.Store → Term × R.Store)}
    {plain : R.Store → NifResult (Term × R.Store)} (w : World R)
    (same : ∀ db, (do return (← body.eval db) db) = plain db) :
    (writingShared body).run w = w.writeShared plain := by
  simp only [writingShared, run_openDb, run_program, World.writeShared, handleDb, ← same]
  split
  · rfl
  · cases body.eval w.handle.db <;> rfl

theorem run_locking {S : Type} {id : Nat} {view : World R → R.Snap → S} {body : Body S (Made R)}
    {plain : R.Snap → NifResult (Made R)} (w : World R)
    (same : ∀ snap, body.eval (view w snap) = plain snap) :
    (locking id view body).run w = w.lockSnapshot id plain := by
  simp only [locking, peek, Program.run, World.lockSnapshot, ← same]
  cases here : w.snapshots[id]? with
  | none => rfl
  | some resource =>
    simp only
    split
    · rfl
    · simp only [run_program, World.snapshotAt, here, Option.map_some, Option.getD_some]
      rcases body.eval (view w resource.snap) with (_ | _) | made
      · rfl
      · simp only [Program.run, run_stopWith, World.poisonSnapshot]
        rw [List.modify_eq_set_getElem?]
        simp [here]
      · rfl

theorem run_readingSnapshot {resource : Term} {body : Body (R.Store × R.Snap) (Made R)}
    {plain : R.Store → R.Snap → NifResult (Made R)} (w : World R)
    (same : ∀ db snap, body.eval (db, snap) = plain db snap) :
    (readingSnapshot resource body).run w = w.readSnapshot resource plain := by
  apply run_decoding
  intro id
  rw [run_openDb, run_locking w (same w.handle.db)]

theorem run_advancing (id : Nat) (step : R.Iter → Term × R.Iter) (w : World R) :
    (advancing id step).run w = w.lockIterator id step := by
  simp only [advancing, peek, Program.run, World.lockIterator]
  cases here : w.iterators[id]? with
  | none => rfl
  | some resource =>
    simp only
    split
    · rfl
    · simp only [Program.run, here, run_stopWith, World.advance]
      rw [List.modify_eq_set_getElem?]
      simp [here]

end Run
section Programs

variable (rt : Rustler) {S : Type}

/-- `for elem in keys_iter { .. db_guard.cf_handle(&cf_name) .. }` -/
def lookupKeys (view : S → R.Store) (keys : Term) : Body S (List (Option R.Cf × Bytes)) := do
  let keysIter ← keys.decodeList
  Body.forEach rt (fun keysList elem => do
    let xs ← elem.getTuple
    let cfName ← (← indexed xs 0).decodeString
    let key ← (← indexed xs 1).decodeBinary
    let cfHandler ← Body.see fun s => R.cfHandle (view s) cfName
    return keysList ++ [(some (← unwrap cfHandler), key)]) keysIter []

/-- One element of a batch, with the look-up of its family where there is one. -/
def lookupElement (elem : Term) : Body R.Store (List (WriteOp R.Cf)) := do
  let terms ← elem.getTuple
  if terms.length ≥ 2 then
    match ← (← indexed terms 0).atomToString with
    | "put" =>
      let key ← (← indexed terms 1).decodeBinary
      let val ← (← indexed terms 2).decodeBinary
      return [.put none key val]
    | "put_cf" =>
      let cf ← (← indexed terms 1).decodeString
      let key ← (← indexed terms 2).decodeBinary
      let value ← (← indexed terms 3).decodeBinary
      let cfHandler ← unwrap (← Body.see fun db => R.cfHandle db cf)
      return [.put (some cfHandler) key value]
    | "delete" =>
      let key ← (← indexed terms 1).decodeBinary
      return [.delete none key]
    | "delete_cf" =>
      let cf ← (← indexed terms 1).decodeString
      let key ← (← indexed terms 2).decodeBinary
      let cfHandler ← unwrap (← Body.see fun db => R.cfHandle db cf)
      return [.delete (some cfHandler) key]
    | "merge" =>
      let key ← (← indexed terms 1).decodeBinary
      let operand ← (← indexed terms 2).decodeBinary
      return [.merge none key operand]
    | "merge_cf" =>
      let cf ← (← indexed terms 1).decodeString
      let key ← (← indexed terms 2).decodeBinary
      let operand ← (← indexed terms 3).decodeBinary
      let cfHandler ← unwrap (← Body.see fun db => R.cfHandle db cf)
      return [.merge (some cfHandler) key operand]
    | _ => return []
  else return []

def batchBody (txs : Term) : Body R.Store (R.Store → Term × R.Store) := do
  let iter ← txs.decodeList
  let batch ← Body.forEach rt (fun batch elem => return batch ++ (← lookupElement elem)) iter []
  if batch.length > 0 then
    return fun db =>
      match R.write db batch with
      | .ok db => (.tuple [.ok, .integer batch.length], db)
      | .error e => (.error e, R.refused db (.write batch))
  else return fun db => (.tuple [.ok, .integer 0], db)

/-- An iterator at the first key, which another one may replace. -/
def positioned (make : S → IteratorMode → R.Iter) (mode : Term) : Body S (Made R) := do
  let _ ← Body.see fun s => make s .start
  let mode ← iteratorMode mode
  return .iterator (← Body.see fun s => make s mode)

def Call.program : Call → NifProgram R
  | .latestSequenceNumber => reading do
    return .term (.tuple [.ok, .integer (← Body.see R.latestSequenceNumber)])
  | .getDbPath => reading do
    return .term (.tuple [.ok, .binary (intoBytes (← Body.see R.path))])
  | .put key val => writing do
    return fun db => done db (.issue (.put none (key.lazyBinary rt) (val.lazyBinary rt)))
  | .get key => reading do
    return .term (found (← Body.see fun db => R.get db none (key.lazyBinary rt)))
  | .delete key => writing do
    return fun db => done db (.issue (.delete none (key.lazyBinary rt)))
  | .merge key operand => writing do
    return fun db => done db (.issue (.merge none (key.lazyBinary rt) (operand.lazyBinary rt)))
  | .mergeCf cfName key operand => decoding cfName.decodeString fun cfName => writing do
    match ← Body.see fun db => R.cfHandle db cfName with
    | some cf =>
      return fun db =>
        done db (.issue (.merge (some cf) (key.lazyBinary rt) (operand.lazyBinary rt)))
    | none =>
      return fun db =>
        (.error ("Column family '".toList ++ cfName ++ "' not found".toList), db)
  | .writeBatch txs => writing (batchBody rt txs)
  | .iterator mode => reading (positioned (fun db mode => R.iterator db none mode .default) mode)
  | .iteratorRange mode first last readOpts =>
    decoding (decodeReadOptions readOpts) fun readOpts =>
      decoding (rangeOptions first last readOpts) fun readOpts => reading do
        let mode ← iteratorMode mode
        return .iterator (← Body.see fun db => R.iterator db none mode readOpts)
  | .next resource =>
    match resource with
    | .resource (.iterator id) => advancing id fun iter =>
      match R.next iter with
      | (none, iter) => (.atom "end_of_iterator", iter)
      | (some (.ok (k, v)), iter) => (.tuple [.ok, .binary k, .binary v], iter)
      | (some (.error e), iter) => (.error e, iter)
    | _ => stopWith .badarg
  | .prefixIterator start => reading do
    return .iterator (← Body.see fun db => R.prefixIterator db none (start.lazyBinary rt))
  | .createCf cfName opts => decoding cfName.decodeString fun cfName =>
    decoding (decodeOptions opts) fun opts => writing do
      let dbOpts ← R.options (← settings opts optionKinds)
      return fun db => done db (.createCf cfName dbOpts)
  | .dropCf cfName => decoding cfName.decodeString fun cfName => writing do
    return fun db => done db (.dropCf cfName)
  | .putCf cfName key val => decoding cfName.decodeString fun cfName => writing do
    let cf ← unwrap (← Body.see fun db => R.cfHandle db cfName)
    return fun db => done db (.issue (.put (some cf) (key.lazyBinary rt) (val.lazyBinary rt)))
  | .getCf cfName key => decoding cfName.decodeString fun cfName => reading do
    let cf ← unwrap (← Body.see fun db => R.cfHandle db cfName)
    return .term (found (← Body.see fun db => R.get db (some cf) (key.lazyBinary rt)))
  | .deleteCf cfName key => decoding cfName.decodeString fun cfName => writingShared do
    let cf ← unwrap (← Body.see fun db => R.cfHandle db cfName)
    return fun db => done db (.issue (.delete (some cf) (key.lazyBinary rt)))
  | .iteratorCf cfName mode => decoding cfName.decodeString fun cfName => reading do
    match ← Body.see fun db => R.cfHandle db cfName with
    | none => return .term unknownCf
    | some cf => positioned (fun db mode => R.iterator db (some cf) mode .default) mode
  | .prefixIteratorCf cfName start => decoding cfName.decodeString fun cfName => reading do
    match ← Body.see fun db => R.cfHandle db cfName with
    | none => return .term unknownCf
    | some cf =>
      return .iterator (← Body.see fun db => R.prefixIterator db (some cf) (start.lazyBinary rt))
  | .deleteRange keyFrom keyTo => writing do
    let batch := [.deleteRange none (keyFrom.lazyBinary rt) (keyTo.lazyBinary rt)]
    return fun db => done db (.write batch)
  | .deleteRangeCf cfName keyFrom keyTo => decoding cfName.decodeString fun cfName => writing do
    match ← Body.see fun db => R.cfHandle db cfName with
    | none => return fun db => (unknownCf, db)
    | some cf =>
      return fun db =>
        done db (.issue (.deleteRange (some cf) (keyFrom.lazyBinary rt) (keyTo.lazyBinary rt)))
  | .multiGet keys => reading do
    let keysList ← decodeKeys rt Term.decodeBinary keys
    return .term (foundAll (← Body.see fun db => R.multiGet db (keysList.map fun k => (none, k))))
  | .multiGetCf keys => reading do
    let keysList ← lookupKeys rt (fun db => db) keys
    return .term (foundAll (← Body.see fun db => R.multiGet db keysList))
  | .keyMayExist key => reading do
    let exists_ ← Body.see fun db => R.keyMayExist db none (key.lazyBinary rt)
    return .term (.tuple [.ok, .bool exists_])
  | .keyMayExistCf cfName key => decoding cfName.decodeString fun cfName => reading do
    match ← Body.see fun db => R.cfHandle db cfName with
    | none => return .term (.tuple [.ok, .bool false])
    | some cf =>
      let exists_ ← Body.see fun db => R.keyMayExist db (some cf) (key.lazyBinary rt)
      return .term (.tuple [.ok, .bool exists_])
  | .snapshot => reading do
    return .snapshot (← Body.see R.snapshot)
  | .snapshotGet resource key => decoding (snapshotOf resource) fun id => lockingSnapshot id do
    return .term (found (← Body.see fun snap => R.snapGet snap none (key.lazyBinary rt)))
  | .snapshotGetCf resource cfName key => decoding cfName.decodeString fun cfName =>
    readingSnapshot resource do
      let cf ← unwrap (← Body.see fun s => R.cfHandle s.1 cfName)
      return .term (found (← Body.see fun s => R.snapGet s.2 (some cf) (key.lazyBinary rt)))
  | .snapshotMultiGet resource keys => decoding (snapshotOf resource) fun id =>
    lockingSnapshot id do
      let keysList ← decodeKeys rt Term.decodeString keys
      let values ← Body.see fun snap =>
        R.snapMultiGet snap (keysList.map fun k => (none, intoBytes k))
      return .term (foundAll values)
  | .snapshotMultiGetCf resource keys => readingSnapshot resource do
    let keysList ← lookupKeys rt Prod.fst keys
    return .term (foundAll (← Body.see fun s => R.snapMultiGet s.2 keysList))
  | .snapshotIterator resource mode => decoding (snapshotOf resource) fun id =>
    lockingSnapshot id (positioned (fun snap mode => R.snapIterator snap none mode) mode)
  | .snapshotIteratorCf resource cfName mode => decoding cfName.decodeString fun cfName =>
    readingSnapshot resource do
      match ← Body.see fun s => R.cfHandle s.1 cfName with
      | none => return .term unknownCf
      | some cf => positioned (fun s mode => R.snapIterator s.2 (some cf) mode) mode
  | .createCheckpoint path => decoding path.decodeString fun path => writing do
    unwrap (← Body.see R.checkpointNew)
    match ← Body.see fun db => R.createCheckpoint db path with
    | .ok () => return fun db => (.ok, db)
    | .error e => return fun db => (.error e, db)
  | .createBackup path => decoding path.decodeString fun path => reading do
    let backupEngine ← unwrap (R.backupEngine path)
    match ← Body.see fun db => R.createNewBackup backupEngine db with
    | .ok backupEngine => return .term (.tuple [.ok, .ofList
        ((R.getBackupInfo backupEngine).map fun i => .tuple [.atom "backup", .integer i.backupId,
          .integer i.timestamp, .integer i.size, .integer i.numFiles])])
    | .error e => return .term (.error e)

theorem eval_lookupKeys (view : S → R.Store) (keys : Term) (s : S) :
    (lookupKeys rt view keys).eval s = decodeKeys rt (familyKey (view s)) keys := by
  simp only [lookupKeys, Body.eval_bind, Body.eval_lift, Body.eval_forEach, decodeKeys]
  congr 1
  funext keysIter
  congr 1
  funext keysList elem
  simp [familyKey]

theorem eval_lookupElement (elem : Term) (db : R.Store) :
    (lookupElement elem).eval db = batchElement db elem := by
  simp only [lookupElement, batchElement, Body.eval_bind, Body.eval_lift]
  congr 1
  funext terms
  split
  · simp only [Body.eval_bind, Body.eval_lift]
    congr 1
    funext t
    congr 1
    funext op
    split <;> simp
  · simp

theorem eval_batchBody (txs : Term) (db : R.Store) :
    (do return (← (batchBody rt txs).eval db) db) = applyBatch rt txs db := by
  simp only [batchBody, applyBatch, batchRecords, Body.eval_bind, Body.eval_lift, Body.eval_forEach,
    eval_lookupElement, Body.eval_pure, bind_assoc]
  congr 1
  funext iter
  congr 1
  funext batch
  split
  · simp only [Body.eval_pure, pure_bind]
    cases R.write db batch <;> rfl
  · rfl

theorem eval_positioned (make : S → IteratorMode → R.Iter) (mode : Term) (s : S) :
    (positioned (R := R) make mode).eval s = (return .iterator (make s (← iteratorMode mode))) := by
  simp [positioned]


/-- Run alone, each program does what the native function does at once. -/
theorem program_run (call : Call) (w : World R) : (call.program rt).run w = w.step rt call := by
  unfold Call.program World.step
  cases call with
  | writeBatch txs => exact run_writing w (eval_batchBody rt txs)
  | latestSequenceNumber | getDbPath | get | prefixIterator | keyMayExist | snapshot | multiGet =>
    exact run_reading w fun db => by simp
  | multiGetCf => exact run_reading w fun db => by simp [eval_lookupKeys]
  | iterator mode => exact run_reading w (eval_positioned _ mode)
  | put | delete | merge | deleteRange => exact run_writing w fun db => by simp
  | dropCf => exact run_decoding _ fun _ => run_writing w fun db => by simp
  | putCf => exact run_decoding _ fun _ => run_writing w fun db => by simp
  | mergeCf | deleteRangeCf =>
    refine run_decoding _ fun cfName => run_writing w fun db => ?_
    simp only [Body.eval_bind, Body.eval_see, pure_bind]
    cases R.cfHandle db cfName <;> simp
  | createCf =>
    exact run_decoding _ fun _ => run_decoding _ fun _ => run_writing w fun db => by simp
  | deleteCf => exact run_decoding _ fun _ => run_writingShared w fun db => by simp
  | getCf => exact run_decoding _ fun _ => run_reading w fun db => by simp
  | iteratorRange =>
    exact run_decoding _ fun _ => run_decoding _ fun _ => run_reading w fun db => by simp
  | iteratorCf =>
    refine run_decoding _ fun cfName => run_reading w fun db => ?_
    simp only [Body.eval_bind, Body.eval_see, pure_bind]
    cases R.cfHandle db cfName
    · rfl
    · exact eval_positioned _ _ db
  | prefixIteratorCf | keyMayExistCf =>
    refine run_decoding _ fun cfName => run_reading w fun db => ?_
    simp only [Body.eval_bind, Body.eval_see, pure_bind]
    cases R.cfHandle db cfName <;> simp
  | snapshotGet | snapshotMultiGet =>
    exact run_decoding _ fun _ => run_locking w fun snap => by simp
  | snapshotIterator =>
    exact run_decoding _ fun _ => run_locking w fun snap => eval_positioned _ _ snap
  | snapshotGetCf =>
    exact run_decoding _ fun _ => run_readingSnapshot w fun db snap => by simp
  | snapshotMultiGetCf =>
    exact run_readingSnapshot w fun db snap => by simp [eval_lookupKeys]
  | snapshotIteratorCf =>
    refine run_decoding _ fun cfName => run_readingSnapshot w fun db snap => ?_
    simp only [Body.eval_bind, Body.eval_see, pure_bind]
    cases R.cfHandle db cfName
    · rfl
    · exact eval_positioned _ _ (db, snap)
  | createCheckpoint =>
    refine run_decoding _ fun path => run_writing w fun db => ?_
    simp only [Body.eval_bind, Body.eval_see, pure_bind, Body.eval_lift, bind_assoc]
    congr 1
    funext _
    cases R.createCheckpoint db path <;> simp
  | createBackup =>
    refine run_decoding _ fun path => run_reading w fun db => ?_
    simp only [Body.eval_bind, Body.eval_see, pure_bind, Body.eval_lift]
    congr 1
    funext engine
    cases R.createNewBackup engine db <;> simp
  | next resource =>
    unfold World.next
    cases resource with
    | resource r =>
      cases r with
      | iterator id => exact run_advancing id _ w
      | db | snapshot => rfl
    | _ => rfl

end Programs

section Takes

variable {guards : List (Guard Resource)}

theorem takes_stopWith (reply : Reply) : Acquires guards (stopWith (R := R) reply) := .finish

theorem takes_peek {next : World R → NifProgram R} (takes : ∀ w, Acquires guards (next w)) :
    Acquires guards (peek next) := .act takes

theorem takes_program {S α : Type} {view : World R → S} {next : NifResult α → NifProgram R}
    (body : Body S α) (takes : ∀ result, Acquires guards (next result)) :
    Acquires guards (body.program view next) := by
  induction body with
  | done result => exact takes result
  | look rest ih => exact takes_peek fun w => ih (view w)

theorem takes_returning (result : NifResult (Made R)) : Acquires guards (returning result) := by
  cases result <;> exact .finish

theorem takes_decoding {α : Type} (argument : NifResult α) {guards : α → List (Guard Resource)}
    {body : α → NifProgram R} (takes : ∀ value, Acquires (guards value) (body value)) :
    Acquires (after argument guards) (decoding argument body) := by
  cases argument with
  | ok value => exact takes value
  | error stop => exact takes_stopWith _

theorem takes_openDb (guard : Guard Resource) {body : NifProgram R} (takes : Acquires guards body) :
    Acquires (guard :: guards) (openDb guard body) := by
  refine .take (takes_peek fun w => ?_)
  split
  · exact takes_stopWith _
  · exact takes

theorem takes_commit (write : R.Store → Term × R.Store) : Acquires guards (commit write) :=
  .act fun _ => takes_stopWith _

theorem takes_reading (body : Body R.Store (Made R)) : Acquires [readGuard] (reading body) :=
  takes_openDb _ (takes_program body takes_returning)

theorem takes_writing (body : Body R.Store (R.Store → Term × R.Store)) :
    Acquires [writeGuard] (writing body) := by
  refine takes_openDb _ (takes_program body ?_)
  rintro ((_ | _) | write)
  · exact takes_stopWith _
  · exact .act fun _ => takes_stopWith _
  · exact takes_commit write

theorem takes_writingShared (body : Body R.Store (R.Store → Term × R.Store)) :
    Acquires [readGuard] (writingShared body) := by
  refine takes_openDb _ (takes_program body ?_)
  rintro (stop | write)
  · exact takes_stopWith _
  · exact takes_commit write

theorem takes_locking {S : Type} (id : Nat) (view : World R → R.Snap → S)
    (body : Body S (Made R)) : Acquires [snapGuard id] (locking id view body) := by
  refine .take (takes_peek fun w => ?_)
  split
  · exact takes_stopWith _
  · split
    · exact takes_stopWith _
    · apply takes_program body
      rintro ((_ | _) | made)
      · exact takes_stopWith _
      · exact .act fun _ => takes_stopWith _
      · exact takes_returning _

theorem takes_readingSnapshot (resource : Term) (body : Body (R.Store × R.Snap) (Made R)) :
    Acquires (after (snapshotAndDb resource) fun id => [readGuard, snapGuard id])
      (readingSnapshot resource body) :=
  takes_decoding _ fun id => takes_openDb _ (takes_locking id _ body)

theorem takes_advancing (id : Nat) (step : R.Iter → Term × R.Iter) :
    Acquires [iterGuard id] (advancing id step) := by
  refine .take (takes_peek fun w => ?_)
  split
  · exact takes_stopWith _
  · split
    · exact takes_stopWith _
    · refine .act fun w => ?_
      split <;> exact takes_stopWith _

/-- Each program takes the guards of its function, in their order. -/
theorem program_takes (rt : Rustler) (call : Call) :
    Acquires call.guards (call.program (R := R) rt) := by
  unfold Call.guards Call.program
  cases call with
  | put | delete | merge | writeBatch | deleteRange => exact takes_writing _
  | latestSequenceNumber | getDbPath | get | iterator | prefixIterator | multiGet | multiGetCf
  | keyMayExist | snapshot => exact takes_reading _
  | mergeCf | dropCf | putCf | deleteRangeCf | createCheckpoint =>
    exact takes_decoding _ fun _ => takes_writing _
  | getCf | iteratorCf | prefixIteratorCf | keyMayExistCf | createBackup =>
    exact takes_decoding _ fun _ => takes_reading _
  | deleteCf => exact takes_decoding _ fun _ => takes_writingShared _
  | createCf => exact takes_decoding _ fun _ => takes_decoding _ fun _ => takes_writing _
  | iteratorRange => exact takes_decoding _ fun _ => takes_decoding _ fun _ => takes_reading _
  | next resource =>
    cases resource with
    | resource r =>
      cases r with
      | iterator id => exact takes_advancing id _
      | db | snapshot => exact takes_stopWith _
    | _ => exact takes_stopWith _
  | snapshotGet | snapshotMultiGet | snapshotIterator =>
    exact takes_decoding _ fun _ => takes_locking _ _ _
  | snapshotGetCf | snapshotIteratorCf =>
    exact takes_decoding _ fun _ => takes_readingSnapshot _ _
  | snapshotMultiGetCf => exact takes_readingSnapshot _ _

end Takes
end ExRocket
