import ExRocket.Nif.World

/-! The native functions that take a database handle, a snapshot or an iterator. Each one
decodes its arguments, takes its lock, and then does under the lock what the source does,
in the same order. -/
namespace ExRocket

open Rust

/-- ok and the new store, or the message and what the refusal has left. -/
def done {R : RocksDb} (db : R.Store) (change : Change R.Cf R.Opts) : Term × R.Store :=
  match R.answer db change with
  | .ok db => (.ok, db)
  | .error e => (.error e, R.refused db change)

def found : Except Str (Option Bytes) → Term
  | .ok (some v) => .tuple [.ok, .binary v]
  | .ok none => .atom "undefined"
  | .error e => .error e

def unknownCf : Term := .tuple [.atom "error", .atom "unknown_cf"]

def Term.ofList : List Term → Term
  | [] => .nil
  | t :: ts => .cons t (ofList ts)

/-- How an iterator mode is taken apart; anything unknown starts at the first key. -/
def iteratorMode (mode : Term) : NifResult IteratorMode := do
  let modeTerms ← mode.getTuple
  if modeTerms.length ≥ 1 then
    match ← (← indexed modeTerms 0).atomToString with
    | "end" => return .ending
    | "from" =>
      let first ← (← indexed modeTerms 1).decodeBinary
      if modeTerms.length = 3 then
        match ← (← indexed modeTerms 2).atomToString with
        | "reverse" => return .reverse first
        | _ => return .forward first
      else return .forward first
    | _ => return .start
  else return .start

/-- `{snap, db, snapshot}` as the functions on the default family take it apart. -/
def snapshotOf (resource : Term) : NifResult Nat := do
  let terms ← resource.getTuple
  match ← indexed terms 2 with
  | .resource (.snapshot id) => return id
  | _ => throw .badarg

/-- The same for the functions that also need the handle, to look up a family. -/
def snapshotAndDb (resource : Term) : NifResult Nat := do
  let terms ← resource.getTuple
  match ← indexed terms 1 with
  | .resource .db =>
    match ← indexed terms 2 with
    | .resource (.snapshot id) => return id
    | _ => throw .badarg
  | _ => throw .badarg

variable (rt : Rustler) {R : RocksDb}

def decodeKeys {α : Type} (decode : Term → NifResult α) (keys : Term) : NifResult (List α) := do
  let keysIter ← keys.decodeList
  keysIter.forEach rt (fun keysList elem => return keysList ++ [← decode elem]) []

/-- A pair of a family name and a key. An unknown family is only noticed after the key. -/
def familyKey (db : R.Store) (elem : Term) : NifResult (Option R.Cf × Bytes) := do
  let xs ← elem.getTuple
  let cfName ← (← indexed xs 0).decodeString
  let key ← (← indexed xs 1).decodeBinary
  return (some (← unwrap (R.cfHandle db cfName)), key)

def foundAll (values : List (Except Str (Option Bytes))) : Term :=
  .tuple [.ok, .ofList (values.map found)]

namespace World

variable (w : World R)

def readSnapshot (resource : Term) (body : R.Store → R.Snap → NifResult (Made R)) :
    Reply × World R :=
  w.decoded (snapshotAndDb resource) fun id =>
    if w.handle.poisoned then (.panicked, w) else w.lockSnapshot id (body w.handle.db)

def latestSequenceNumber : Reply × World R :=
  w.read fun db => return .term (.tuple [.ok, .integer (R.latestSequenceNumber db)])

def getDbPath : Reply × World R :=
  w.read fun db => return .term (.tuple [.ok, .binary (intoBytes (R.path db))])

def put (key val : Term) : Reply × World R :=
  w.write fun db => return done db (.issue (.put none (key.lazyBinary rt) (val.lazyBinary rt)))

def get (key : Term) : Reply × World R :=
  w.read fun db => return .term (found (R.get db none (key.lazyBinary rt)))

def delete (key : Term) : Reply × World R :=
  w.write fun db => return done db (.issue (.delete none (key.lazyBinary rt)))

def merge (key operand : Term) : Reply × World R :=
  w.write fun db =>
    return done db (.issue (.merge none (key.lazyBinary rt) (operand.lazyBinary rt)))

def mergeCf (cfName key operand : Term) : Reply × World R :=
  w.decoded cfName.decodeString fun cfName => w.write fun db =>
    match R.cfHandle db cfName with
    | some cf =>
      return done db
        (.issue (.merge (some cf) (key.lazyBinary rt) (operand.lazyBinary rt)))
    | none =>
      return (.error ("Column family '".toList ++ cfName ++ "' not found".toList), db)

end World

/-- One element of the list: the record it adds to the batch, if any. -/
def batchElement (db : R.Store) (elem : Term) : NifResult (List (WriteOp R.Cf)) := do
  let terms ← elem.getTuple
  if terms.length ≥ 2 then
    match ← (← indexed terms 0).atomToString with
    | "put" =>
      let key ← (← indexed terms 1).decodeBinary
      let val ← (← indexed terms 2).decodeBinary
      return [.put none key val]
    | "put_cf" =>
      let cf ← (← indexed terms 1).decodeString
      let key ← (← indexed terms 2).decodeBinary
      let value ← (← indexed terms 3).decodeBinary
      let cfHandler ← unwrap (R.cfHandle db cf)
      return [.put (some cfHandler) key value]
    | "delete" =>
      let key ← (← indexed terms 1).decodeBinary
      return [.delete none key]
    | "delete_cf" =>
      let cf ← (← indexed terms 1).decodeString
      let key ← (← indexed terms 2).decodeBinary
      let cfHandler ← unwrap (R.cfHandle db cf)
      return [.delete (some cfHandler) key]
    | "merge" =>
      let key ← (← indexed terms 1).decodeBinary
      let operand ← (← indexed terms 2).decodeBinary
      return [.merge none key operand]
    | "merge_cf" =>
      let cf ← (← indexed terms 1).decodeString
      let key ← (← indexed terms 2).decodeBinary
      let operand ← (← indexed terms 3).decodeBinary
      let cfHandler ← unwrap (R.cfHandle db cf)
      return [.merge (some cfHandler) key operand]
    | _ => return []
  else return []

def batchRecords (db : R.Store) (txs : Term) (batch : List (WriteOp R.Cf)) :
    NifResult (List (WriteOp R.Cf)) :=
  txs.forEach rt (fun batch elem => return batch ++ (← batchElement db elem)) batch

def applyBatch (txs : Term) (db : R.Store) : NifResult (Term × R.Store) := do
  let iter ← txs.decodeList
  let batch ← batchRecords rt db iter []
  if batch.length > 0 then
    match R.write db batch with
    | .ok db => return (.tuple [.ok, .integer batch.length], db)
    | .error e => return (.error e, R.refused db (.write batch))
  else return (.tuple [.ok, .integer 0], db)

namespace World

variable (w : World R)

def writeBatch (txs : Term) : Reply × World R := w.write (applyBatch rt txs)

def iterator (mode : Term) : Reply × World R :=
  w.read fun db => return .iterator (R.iterator db none (← iteratorMode mode) .default)

/-- An atom leaves an end of the range open; anything else has to be a binary key. -/
def iteratorRange (mode first last readOpts : Term) : Reply × World R :=
  w.decoded (decodeReadOptions readOpts) fun readOpts =>
    let end_ : Term → NifResult (Option Bytes)
      | .atom _ => return none
      | t => return some (← t.decodeBinary)
    let range : NifResult ReadOptions := do
      let first ← end_ first
      let last ← end_ last
      return (ReadOptions.ofRocker readOpts).setIterateRange first last
    w.decoded range fun readOpts =>
      w.read fun db => return .iterator (R.iterator db none (← iteratorMode mode) readOpts)

def prefixIterator (start : Term) : Reply × World R :=
  w.read fun db => return .iterator (R.prefixIterator db none (start.lazyBinary rt))

def next (resource : Term) : Reply × World R :=
  match resource with
  | .resource (.iterator id) =>
    w.lockIterator id fun iter =>
      match R.next iter with
      | (none, iter) => (.atom "end_of_iterator", iter)
      | (some (.ok (k, v)), iter) => (.tuple [.ok, .binary k, .binary v], iter)
      | (some (.error e), iter) => (.error e, iter)
  | _ => (.badarg, w)

def createCf (cfName opts : Term) : Reply × World R :=
  w.decoded cfName.decodeString fun cfName => w.decoded (decodeOptions opts) fun opts =>
    w.write fun db => do
      let dbOpts ← R.options (← settings opts optionKinds)
      return done db (.createCf cfName dbOpts)

def dropCf (cfName : Term) : Reply × World R :=
  w.decoded cfName.decodeString fun cfName =>
    w.write fun db => return done db (.dropCf cfName)

/-- Unlike merge_cf, the family is unwrapped under the write guard. -/
def putCf (cfName key val : Term) : Reply × World R :=
  w.decoded cfName.decodeString fun cfName => w.write fun db => do
    let cf ← unwrap (R.cfHandle db cfName)
    return done db (.issue (.put (some cf) (key.lazyBinary rt) (val.lazyBinary rt)))

def getCf (cfName key : Term) : Reply × World R :=
  w.decoded cfName.decodeString fun cfName => w.read fun db => do
    let cf ← unwrap (R.cfHandle db cfName)
    return .term (found (R.get db (some cf) (key.lazyBinary rt)))

def deleteCf (cfName key : Term) : Reply × World R :=
  w.decoded cfName.decodeString fun cfName => w.writeShared fun db => do
    let cf ← unwrap (R.cfHandle db cfName)
    return done db (.issue (.delete (some cf) (key.lazyBinary rt)))

def iteratorCf (cfName mode : Term) : Reply × World R :=
  w.decoded cfName.decodeString fun cfName => w.read fun db =>
    match R.cfHandle db cfName with
    | none => return .term unknownCf
    | some cf => return .iterator (R.iterator db (some cf) (← iteratorMode mode) .default)

def prefixIteratorCf (cfName start : Term) : Reply × World R :=
  w.decoded cfName.decodeString fun cfName => w.read fun db =>
    match R.cfHandle db cfName with
    | none => return .term unknownCf
    | some cf => return .iterator (R.prefixIterator db (some cf) (start.lazyBinary rt))

def deleteRange (keyFrom keyTo : Term) : Reply × World R :=
  w.write fun db =>
    let batch := [.deleteRange none (keyFrom.lazyBinary rt) (keyTo.lazyBinary rt)]
    return done db (.write batch)

def deleteRangeCf (cfName keyFrom keyTo : Term) : Reply × World R :=
  w.decoded cfName.decodeString fun cfName => w.write fun db =>
    match R.cfHandle db cfName with
    | none => return (unknownCf, db)
    | some cf =>
      return done db
        (.issue (.deleteRange (some cf) (keyFrom.lazyBinary rt) (keyTo.lazyBinary rt)))

def multiGet (keys : Term) : Reply × World R :=
  w.read fun db => do
    let keysList ← decodeKeys rt Term.decodeBinary keys
    return .term (foundAll (R.multiGet db (keysList.map fun k => (none, k))))

def multiGetCf (keys : Term) : Reply × World R :=
  w.read fun db => do
    let keysList ← decodeKeys rt (familyKey db) keys
    return .term (foundAll (R.multiGet db keysList))

def keyMayExist (key : Term) : Reply × World R :=
  w.read fun db => return .term (.tuple [.ok, .bool (R.keyMayExist db none (key.lazyBinary rt))])

def keyMayExistCf (cfName key : Term) : Reply × World R :=
  w.decoded cfName.decodeString fun cfName => w.read fun db =>
    match R.cfHandle db cfName with
    | none => return .term (.tuple [.ok, .bool false])
    | some cf =>
      return .term (.tuple [.ok, .bool (R.keyMayExist db (some cf) (key.lazyBinary rt))])

def snapshot : Reply × World R :=
  w.read fun db => return .snapshot (R.snapshot db)

def createCheckpoint (path : Term) : Reply × World R :=
  w.decoded path.decodeString fun path => w.write fun db => do
    unwrap (R.checkpointNew db)
    match R.createCheckpoint db path with
    | .ok () => return (.ok, db)
    | .error e => return (.error e, db)

def createBackup (path : Term) : Reply × World R :=
  w.decoded path.decodeString fun path => w.read fun db => do
    let backupEngine ← unwrap (R.backupEngine path)
    match R.createNewBackup backupEngine db with
    | .ok backupEngine => return .term (.tuple [.ok, .ofList
        ((R.getBackupInfo backupEngine).map fun i => .tuple [.atom "backup", .integer i.backupId,
          .integer i.timestamp, .integer i.size, .integer i.numFiles])])
    | .error e => return .term (.error e)

def snapshotGet (resource key : Term) : Reply × World R :=
  w.decoded (snapshotOf resource) fun id => w.lockSnapshot id fun snap =>
    return .term (found (R.snapGet snap none (key.lazyBinary rt)))

def snapshotGetCf (resource cfName key : Term) : Reply × World R :=
  w.decoded cfName.decodeString fun cfName => w.readSnapshot resource fun db snap => do
    let cf ← unwrap (R.cfHandle db cfName)
    return .term (found (R.snapGet snap (some cf) (key.lazyBinary rt)))

/-- The keys are decoded as text here, and as bytes in the function without a snapshot. -/
def snapshotMultiGet (resource keys : Term) : Reply × World R :=
  w.decoded (snapshotOf resource) fun id => w.lockSnapshot id fun snap => do
    let keysList ← decodeKeys rt Term.decodeString keys
    return .term (foundAll (R.snapMultiGet snap (keysList.map fun k => (none, intoBytes k))))

def snapshotMultiGetCf (resource keys : Term) : Reply × World R :=
  w.readSnapshot resource fun db snap => do
    let keysList ← decodeKeys rt (familyKey db) keys
    return .term (foundAll (R.snapMultiGet snap keysList))

def snapshotIterator (resource mode : Term) : Reply × World R :=
  w.decoded (snapshotOf resource) fun id => w.lockSnapshot id fun snap =>
    return .iterator (R.snapIterator snap none (← iteratorMode mode))

def snapshotIteratorCf (resource cfName mode : Term) : Reply × World R :=
  w.decoded cfName.decodeString fun cfName => w.readSnapshot resource fun db snap =>
    match R.cfHandle db cfName with
    | none => return .term unknownCf
    | some cf => return .iterator (R.snapIterator snap (some cf) (← iteratorMode mode))

end World
end ExRocket
