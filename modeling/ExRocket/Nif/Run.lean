import ExRocket.Nif.Calls

/-! Runs of native calls, one after the other, each with arbitrary argument terms. -/
namespace ExRocket

inductive Call where
  | latestSequenceNumber
  | getDbPath
  | put (key val : Term)
  | get (key : Term)
  | delete (key : Term)
  | merge (key operand : Term)
  | mergeCf (cfName key operand : Term)
  | writeBatch (txs : Term)
  | iterator (mode : Term)
  | iteratorRange (mode first last readOpts : Term)
  | next (resource : Term)
  | prefixIterator (start : Term)
  | createCf (cfName opts : Term)
  | dropCf (cfName : Term)
  | putCf (cfName key val : Term)
  | getCf (cfName key : Term)
  | deleteCf (cfName key : Term)
  | iteratorCf (cfName mode : Term)
  | prefixIteratorCf (cfName start : Term)
  | deleteRange (keyFrom keyTo : Term)
  | deleteRangeCf (cfName keyFrom keyTo : Term)
  | multiGet (keys : Term)
  | multiGetCf (keys : Term)
  | keyMayExist (key : Term)
  | keyMayExistCf (cfName key : Term)
  | snapshot
  | snapshotGet (resource key : Term)
  | snapshotGetCf (resource cfName key : Term)
  | snapshotMultiGet (resource keys : Term)
  | snapshotMultiGetCf (resource keys : Term)
  | snapshotIterator (resource mode : Term)
  | snapshotIteratorCf (resource cfName mode : Term)
  | createCheckpoint (path : Term)
  | createBackup (path : Term)

namespace World

variable (rt : Rustler) {R : RocksDb}

def step (w : World R) : Call → Reply × World R
  | .latestSequenceNumber => w.latestSequenceNumber
  | .getDbPath => w.getDbPath
  | .put key val => w.put rt key val
  | .get key => w.get rt key
  | .delete key => w.delete rt key
  | .merge key operand => w.merge rt key operand
  | .mergeCf cfName key operand => w.mergeCf rt cfName key operand
  | .writeBatch txs => w.writeBatch rt txs
  | .iterator mode => w.iterator mode
  | .iteratorRange mode first last readOpts => w.iteratorRange mode first last readOpts
  | .next resource => w.next resource
  | .prefixIterator start => w.prefixIterator rt start
  | .createCf cfName opts => w.createCf cfName opts
  | .dropCf cfName => w.dropCf cfName
  | .putCf cfName key val => w.putCf rt cfName key val
  | .getCf cfName key => w.getCf rt cfName key
  | .deleteCf cfName key => w.deleteCf rt cfName key
  | .iteratorCf cfName mode => w.iteratorCf cfName mode
  | .prefixIteratorCf cfName start => w.prefixIteratorCf rt cfName start
  | .deleteRange keyFrom keyTo => w.deleteRange rt keyFrom keyTo
  | .deleteRangeCf cfName keyFrom keyTo => w.deleteRangeCf rt cfName keyFrom keyTo
  | .multiGet keys => w.multiGet rt keys
  | .multiGetCf keys => w.multiGetCf rt keys
  | .keyMayExist key => w.keyMayExist rt key
  | .keyMayExistCf cfName key => w.keyMayExistCf rt cfName key
  | .snapshot => w.snapshot
  | .snapshotGet resource key => w.snapshotGet rt resource key
  | .snapshotGetCf resource cfName key => w.snapshotGetCf rt resource cfName key
  | .snapshotMultiGet resource keys => w.snapshotMultiGet rt resource keys
  | .snapshotMultiGetCf resource keys => w.snapshotMultiGetCf rt resource keys
  | .snapshotIterator resource mode => w.snapshotIterator resource mode
  | .snapshotIteratorCf resource cfName mode => w.snapshotIteratorCf resource cfName mode
  | .createCheckpoint path => w.createCheckpoint path
  | .createBackup path => w.createBackup path

def run (w : World R) : List Call → List Reply × World R
  | [] => ([], w)
  | call :: calls =>
    let (reply, w) := w.step rt call
    let (replies, w) := run w calls
    (reply :: replies, w)

@[simp] theorem run_nil (w : World R) : w.run rt [] = ([], w) := rfl

@[simp] theorem run_cons (w : World R) (call : Call) (calls : List Call) :
    w.run rt (call :: calls) =
      ((w.step rt call).1 :: ((w.step rt call).2.run rt calls).1,
        ((w.step rt call).2.run rt calls).2) := rfl

end World
end ExRocket
