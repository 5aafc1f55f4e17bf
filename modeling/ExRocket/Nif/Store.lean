import ExRocket.Nif.Options

/-! The store behind a handle, as a parameter: what the native functions call of RocksDB and
of its Rust binding. A change that is refused yields its message; what it leaves of the store
need not be what there was. RocksDB takes no more writes after a range whose ends are the wrong
way round, and the binding forgets a family before RocksDB refuses to drop it. -/
namespace ExRocket

open Rust

/-- One record of a write batch, also what a single write issues. No family is the default one. -/
inductive WriteOp (Cf : Type) where
  | put (cf : Option Cf) (key value : Bytes)
  | delete (cf : Option Cf) (key : Bytes)
  | merge (cf : Option Cf) (key operand : Bytes)
  | deleteRange (cf : Option Cf) (first last : Bytes)

def WriteOp.family {Cf : Type} : WriteOp Cf → Option Cf
  | .put cf .. | .delete cf _ | .merge cf .. | .deleteRange cf .. => cf

def WriteOp.ranged {Cf : Type} : WriteOp Cf → Bool
  | .deleteRange .. => true
  | _ => false

/-- What is asked of a store. -/
inductive Change (Cf Opts : Type) where
  | issue (op : WriteOp Cf)
  | write (ops : List (WriteOp Cf))
  | createCf (name : Str) (opts : Opts)
  | dropCf (name : Str)

inductive IteratorMode where
  | start
  | ending
  | forward (key : Bytes)
  | reverse (key : Bytes)
  deriving DecidableEq

structure BackupInfo where
  backupId : Nat
  timestamp : Int
  size : Nat
  numFiles : Nat

structure RocksDb where
  Store : Type
  Cf : Type
  Opts : Type
  Snap : Type
  Iter : Type
  Engine : Type
  cfHandle : Store → Str → Option Cf
  get : Store → Option Cf → Bytes → Except Str (Option Bytes)
  multiGet : Store → List (Option Cf × Bytes) → List (Except Str (Option Bytes))
  keyMayExist : Store → Option Cf → Bytes → Bool
  issue : Store → WriteOp Cf → Except Str Store
  write : Store → List (WriteOp Cf) → Except Str Store
  options : List Setting → NifResult Opts
  createCf : Store → Str → Opts → Except Str Store
  dropCf : Store → Str → Except Str Store
  /-- The store, and the families its binding knows, after a change that was refused. -/
  refused : Store → Change Cf Opts → Store
  iterator : Store → Option Cf → IteratorMode → ReadOptions → Iter
  prefixIterator : Store → Option Cf → Bytes → Iter
  next : Iter → Option (Except Str (Bytes × Bytes)) × Iter
  snapshot : Store → Snap
  snapGet : Snap → Option Cf → Bytes → Except Str (Option Bytes)
  snapMultiGet : Snap → List (Option Cf × Bytes) → List (Except Str (Option Bytes))
  snapIterator : Snap → Option Cf → IteratorMode → Iter
  latestSequenceNumber : Store → Nat
  path : Store → Str
  checkpointNew : Store → Option Unit
  createCheckpoint : Store → Str → Except Str Unit
  /-- The environment, the options for the path and the engine; any of the three may fail. -/
  backupEngine : Str → Option Engine
  createNewBackup : Engine → Store → Except Str Engine
  getBackupInfo : Engine → List BackupInfo
  /-- Writing data neither adds nor drops a family, and neither does a write that is refused. -/
  issue_families : ∀ s op s', issue s op = .ok s' → cfHandle s' = cfHandle s
  refusedIssue_families : ∀ s op, cfHandle (refused s (.issue op)) = cfHandle s
  refusedWrite_families : ∀ s ops, cfHandle (refused s (.write ops)) = cfHandle s

namespace RocksDb

variable (R : RocksDb)

def answer (db : R.Store) : Change R.Cf R.Opts → Except Str R.Store
  | .issue op => R.issue db op
  | .write ops => R.write db ops
  | .createCf name opts => R.createCf db name opts
  | .dropCf name => R.dropCf db name

/-- A batch is applied whole and in order, and is refused if one of its records would be. -/
def BatchInOrder : Prop :=
  ∀ s ops s', R.write s ops = .ok s' → ops.foldlM R.issue s = .ok s'

/-- A batch of single records that is refused leaves nothing. -/
def BatchWhole : Prop :=
  ∀ s ops e, (∀ op ∈ ops, op.ranged = false) → R.write s ops = .error e →
    R.refused s (.write ops) = s

end RocksDb
end ExRocket
