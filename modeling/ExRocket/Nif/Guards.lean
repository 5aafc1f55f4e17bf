import ExRocket.Library.Locks
import ExRocket.Nif.Custody

/-! The guards that each native function takes, in the order in which it takes them, and
what it does under them: a call reads no resource without a guard of it, and changes none
without an exclusive one, but for the deletion in a family. -/
namespace ExRocket

open Locks Rust

/-- `resource.read()` on a database handle. -/
def readGuard : Guard Resource := ⟨.db, .shared⟩

/-- `resource.write()` on a database handle. -/
def writeGuard : Guard Resource := ⟨.db, .exclusive⟩

/-- `resource.lock()` on a snapshot. -/
def snapGuard (id : Nat) : Guard Resource := ⟨.snapshot id, .exclusive⟩

/-- `resource.lock()` on an iterator. -/
def iterGuard (id : Nat) : Guard Resource := ⟨.iterator id, .exclusive⟩

/-- An argument that does not decode ends the call before it takes a guard. -/
def after {α : Type} (argument : NifResult α) (guards : α → List (Guard Resource)) :
    List (Guard Resource) :=
  match argument with
  | .ok value => guards value
  | .error _ => []

/-- The bounds of a range scan, decoded before the handle is read. -/
def rangeOptions (first last : Term) (readOpts : RockerReadOptions) : NifResult ReadOptions := do
  let end_ : Term → NifResult (Option Bytes)
    | .atom _ => return none
    | t => return some (← t.decodeBinary)
  let first ← end_ first
  let last ← end_ last
  return (ReadOptions.ofRocker readOpts).setIterateRange first last

def nextGuards : Term → List (Guard Resource)
  | .resource (.iterator id) => [iterGuard id]
  | _ => []

def Call.guards : Call → List (Guard Resource)
  | .latestSequenceNumber => [readGuard]
  | .getDbPath => [readGuard]
  | .put _ _ => [writeGuard]
  | .get _ => [readGuard]
  | .delete _ => [writeGuard]
  | .merge _ _ => [writeGuard]
  | .mergeCf cfName _ _ => after cfName.decodeString fun _ => [writeGuard]
  | .writeBatch _ => [writeGuard]
  | .iterator _ => [readGuard]
  | .iteratorRange _ first last readOpts =>
    after (decodeReadOptions readOpts) fun readOpts =>
      after (rangeOptions first last readOpts) fun _ => [readGuard]
  | .next resource => nextGuards resource
  | .prefixIterator _ => [readGuard]
  | .createCf cfName opts =>
    after cfName.decodeString fun _ => after (decodeOptions opts) fun _ => [writeGuard]
  | .dropCf cfName => after cfName.decodeString fun _ => [writeGuard]
  | .putCf cfName _ _ => after cfName.decodeString fun _ => [writeGuard]
  | .getCf cfName _ => after cfName.decodeString fun _ => [readGuard]
  | .deleteCf cfName _ => after cfName.decodeString fun _ => [readGuard]
  | .iteratorCf cfName _ => after cfName.decodeString fun _ => [readGuard]
  | .prefixIteratorCf cfName _ => after cfName.decodeString fun _ => [readGuard]
  | .deleteRange _ _ => [writeGuard]
  | .deleteRangeCf cfName _ _ => after cfName.decodeString fun _ => [writeGuard]
  | .multiGet _ => [readGuard]
  | .multiGetCf _ => [readGuard]
  | .keyMayExist _ => [readGuard]
  | .keyMayExistCf cfName _ => after cfName.decodeString fun _ => [readGuard]
  | .snapshot => [readGuard]
  | .snapshotGet resource _ => after (snapshotOf resource) fun id => [snapGuard id]
  | .snapshotGetCf resource cfName _ =>
    after cfName.decodeString fun _ =>
      after (snapshotAndDb resource) fun id => [readGuard, snapGuard id]
  | .snapshotMultiGet resource _ => after (snapshotOf resource) fun id => [snapGuard id]
  | .snapshotMultiGetCf resource _ =>
    after (snapshotAndDb resource) fun id => [readGuard, snapGuard id]
  | .snapshotIterator resource _ => after (snapshotOf resource) fun id => [snapGuard id]
  | .snapshotIteratorCf resource cfName _ =>
    after cfName.decodeString fun _ =>
      after (snapshotAndDb resource) fun id => [readGuard, snapGuard id]
  | .createCheckpoint path => after path.decodeString fun _ => [writeGuard]
  | .createBackup path => after path.decodeString fun _ => [readGuard]

/-- The order in which locks are taken: a database before a snapshot. -/
def Resource.rank : Resource → Nat
  | .db => 0
  | .snapshot _ | .iterator _ => 1

def Ranked (guards : List (Guard Resource)) : Prop :=
  guards.Pairwise fun g h => g.lock.rank < h.lock.rank

theorem after_ranked {α : Type} (argument : NifResult α) {guards : α → List (Guard Resource)}
    (ranked : ∀ value, Ranked (guards value)) : Ranked (after argument guards) := by
  cases argument with
  | ok value => exact ranked value
  | error stop => exact .nil

theorem single_ranked (g : Guard Resource) : Ranked [g] := List.pairwise_singleton _ _

theorem readSnapshot_ranked (id : Nat) : Ranked [readGuard, snapGuard id] :=
  List.pairwise_pair.mpr Nat.zero_lt_one

theorem nextGuards_ranked (resource : Term) : Ranked (nextGuards resource) := by
  unfold nextGuards
  split
  · exact single_ranked _
  · exact .nil

theorem guards_ranked (call : Call) : Ranked call.guards := by
  unfold Call.guards
  cases call with
  | next resource => exact nextGuards_ranked resource
  | mergeCf | dropCf | putCf | deleteRangeCf | createCheckpoint | getCf | deleteCf | iteratorCf
  | prefixIteratorCf | keyMayExistCf | createBackup | snapshotGet | snapshotMultiGet
  | snapshotIterator => exact after_ranked _ fun _ => single_ranked _
  | createCf | iteratorRange =>
    exact after_ranked _ fun _ => after_ranked _ fun _ => single_ranked _
  | snapshotGetCf | snapshotIteratorCf =>
    exact after_ranked _ fun _ => after_ranked _ readSnapshot_ranked
  | snapshotMultiGetCf => exact after_ranked _ readSnapshot_ranked
  | _ => exact single_ranked _

/-- A call does not take one lock twice. -/
theorem guards_once {call : Call} {g h : Guard Resource} (taken : g ∈ call.guards)
    (taken' : h ∈ call.guards) (same : g.lock = h.lock) : g = h := by
  have once : ∀ ⦃g⦄, g ∈ call.guards → ∀ ⦃h⦄, h ∈ call.guards → g.lock = h.lock → g = h := by
    apply List.Pairwise.forall_of_forall_of_flip
    · exact fun _ _ _ => rfl
    · exact (guards_ranked call).imp fun below same =>
        absurd (congrArg Resource.rank same) (Nat.ne_of_lt below)
    · exact (guards_ranked call).imp fun below same =>
        absurd (congrArg Resource.rank same) (Nat.ne_of_gt below)
  exact once taken taken' same

variable {rt : Rustler} {R : RocksDb}

namespace World

def SameAt (w v : World R) : Resource → Prop
  | .db => w.handle = v.handle
  | .snapshot id => w.snapshots[id]? = v.snapshots[id]?
  | .iterator id => w.iterators[id]? = v.iterators[id]?

/-- The next snapshot and the next iterator get the same number. -/
def SameNumbers (w v : World R) : Prop :=
  w.snapshots.length = v.snapshots.length ∧ w.iterators.length = v.iterators.length

end World

/-- What is done under these guards depends only on what they guard, and changes only what
one of them guards exclusively. -/
structure Framed (guards : List (Guard Resource)) (body : World R → Reply × World R) : Prop where
  reads : ∀ w v, (∀ g ∈ guards, w.SameAt v g.lock) → w.SameNumbers v → (body w).1 = (body v).1
  writes : ∀ w r, r ∈ w.resources → (∀ g ∈ guards, g.lock = r → g.access = .shared) →
    (body w).2.SameAt w r

namespace World

@[simp] theorem sameAt_refl (w : World R) (r : Resource) : w.SameAt w r := by
  cases r <;> rfl

theorem release_reply {w v : World R} (numbers : w.SameNumbers v) (made : Made R) :
    (w.release made).1 = (v.release made).1 := by
  cases made with
  | term => rfl
  | snapshot => simp only [release, numbers.1]
  | iterator => simp only [release, numbers.2]

theorem release_sameAt {w : World R} (made : Made R) {r : Resource} (known : r ∈ w.resources) :
    (w.release made).2.SameAt w r := by
  cases r with
  | db => exact release_handle w made
  | snapshot id =>
    cases made with
    | snapshot => exact List.getElem?_append_left (snapshot_mem_resources.mp known)
    | term | iterator => rfl
  | iterator id =>
    cases made with
    | iterator => exact List.getElem?_append_left (iterator_mem_resources.mp known)
    | term | snapshot => rfl

end World

theorem refused_framed (guards : List (Guard Resource)) (stop : Stop) :
    Framed (R := R) guards fun w => (stop.reply, w) where
  reads _ _ _ _ := rfl
  writes w r _ _ := w.sameAt_refl r

theorem decoded_framed {α : Type} (argument : NifResult α)
    {guards : α → List (Guard Resource)} {body : World R → α → Reply × World R}
    (framed : ∀ value, Framed (guards value) fun w => body w value) :
    Framed (after argument guards) fun w => w.decoded argument (body w) := by
  cases argument with
  | ok value => exact framed value
  | error stop => exact refused_framed _ stop

theorem read_framed (body : R.Store → NifResult (Made R)) :
    Framed [readGuard] fun w => w.read body := by
  constructor
  · intro w v same numbers
    have handle : w.handle = v.handle := same readGuard List.mem_cons_self
    simp only [World.read, handle]
    split
    · rfl
    · split
      · exact World.release_reply numbers _
      · rfl
  · intro w r known _
    simp only [World.read]
    split
    · exact w.sameAt_refl r
    · split
      · exact World.release_sameAt _ known
      · exact w.sameAt_refl r

theorem not_writeGuard {r : Resource}
    (shared : ∀ g ∈ [writeGuard], g.lock = r → g.access = .shared) : r ≠ .db := by
  rintro rfl
  cases shared writeGuard List.mem_cons_self rfl

theorem sameAt_handle {w : World R} {r : Resource} (other : r ≠ .db) (handle : DbResource R) :
    World.SameAt { w with handle := handle } w r := by
  cases r with
  | db => exact absurd rfl other
  | snapshot | iterator => rfl

theorem write_framed (body : R.Store → NifResult (Term × R.Store)) :
    Framed [writeGuard] fun w => w.write body := by
  constructor
  · intro w v same _
    have handle : w.handle = v.handle := same writeGuard List.mem_cons_self
    simp only [World.write, handle]
    split
    · rfl
    · split <;> rfl
  · intro w r _ shared
    have other := not_writeGuard shared
    rcases World.write_cases w body with
      ⟨_, result⟩ | ⟨_, ⟨t, db, _, result⟩ | ⟨_, result⟩ | ⟨_, result⟩⟩
    all_goals
      simp only [result]
    · exact w.sameAt_refl r
    · exact sameAt_handle other _
    · exact w.sameAt_refl r
    · exact sameAt_handle other _

/-- To write under the read guard is to take too little: what the body does needs the
write guard. -/
theorem writeShared_framed (body : R.Store → NifResult (Term × R.Store)) :
    Framed [writeGuard] fun w => w.writeShared body := by
  constructor
  · intro w v same _
    have handle : w.handle = v.handle := same writeGuard List.mem_cons_self
    simp only [World.writeShared, handle]
    split
    · rfl
    · split <;> rfl
  · intro w r _ shared
    have other := not_writeGuard shared
    rcases World.writeShared_cases w body with
      ⟨_, result⟩ | ⟨_, ⟨t, db, _, result⟩ | ⟨_, _, result⟩⟩
    all_goals
      simp only [result]
    · exact w.sameAt_refl r
    · exact sameAt_handle other _
    · exact w.sameAt_refl r

theorem sameAt_snapshot {w : World R} {id : Nat} {r : Resource} (other : r ≠ .snapshot id)
    (resource : SnapshotResource R) :
    World.SameAt { w with snapshots := w.snapshots.set id resource } w r := by
  cases r with
  | db | iterator => rfl
  | snapshot id' =>
    apply List.getElem?_set_ne
    rintro rfl
    exact other rfl

theorem lockSnapshot_framed (id : Nat) {guards : List (Guard Resource)}
    (guarded : snapGuard id ∈ guards) (body : R.Store → R.Snap → NifResult (Made R))
    (reader : (readGuard ∈ guards) ∨ ∀ db db', body db = body db') :
    Framed guards fun w => w.lockSnapshot id (body w.handle.db) := by
  constructor
  · intro w v same numbers
    have snapshot : w.snapshots[id]? = v.snapshots[id]? := same _ guarded
    have bodies : body w.handle.db = body v.handle.db := by
      rcases reader with reads | constant
      · have handle : w.handle = v.handle := same _ reads
        rw [handle]
      · exact constant _ _
    simp only [World.lockSnapshot, snapshot, bodies]
    split
    · rfl
    · split
      · rfl
      · split
        · exact World.release_reply numbers _
        · rfl
        · rfl
  · intro w r known shared
    have other : r ≠ .snapshot id := by
      rintro rfl
      cases shared _ guarded rfl
    simp only [World.lockSnapshot]
    split
    · exact w.sameAt_refl r
    · split
      · exact w.sameAt_refl r
      · split
        · exact World.release_sameAt _ known
        · exact w.sameAt_refl r
        · exact sameAt_snapshot other _

theorem snapshotOnly_framed (id : Nat) (body : R.Snap → NifResult (Made R)) :
    Framed [snapGuard id] fun w => w.lockSnapshot id body :=
  lockSnapshot_framed id List.mem_cons_self (fun _ => body) (.inr fun _ _ => rfl)

theorem readSnapshot_framed (resource : Term)
    (body : R.Store → R.Snap → NifResult (Made R)) :
    Framed (after (snapshotAndDb resource) fun id => [readGuard, snapGuard id])
      fun w => w.readSnapshot resource body := by
  apply decoded_framed
  intro id
  have guarded : snapGuard id ∈ [readGuard, snapGuard id] := by simp
  have locked := lockSnapshot_framed id guarded body (.inl List.mem_cons_self)
  constructor
  · intro w v same numbers
    have handle : w.handle = v.handle := same readGuard List.mem_cons_self
    have replies := locked.reads w v same numbers
    simp only [handle] at replies ⊢
    split
    · rfl
    · exact replies
  · intro w r known shared
    split
    · exact w.sameAt_refl r
    · exact locked.writes w r known shared

theorem lockIterator_framed (id : Nat) (body : R.Iter → Term × R.Iter) :
    Framed [iterGuard id] fun w => w.lockIterator id body := by
  constructor
  · intro w v same _
    have iterator : w.iterators[id]? = v.iterators[id]? := same _ List.mem_cons_self
    simp only [World.lockIterator, iterator]
    split
    · rfl
    · split <;> rfl
  · intro w r _ shared
    simp only [World.lockIterator]
    split
    · exact w.sameAt_refl r
    · split
      · exact w.sameAt_refl r
      · cases r with
        | db | snapshot => rfl
        | iterator id' =>
          apply List.getElem?_set_ne
          rintro rfl
          cases shared _ List.mem_cons_self rfl

theorem next_framed (resource : Term) :
    Framed (R := R) (nextGuards resource) fun w => w.next resource := by
  unfold World.next
  cases resource with
  | resource r =>
    cases r with
    | iterator id => exact lockIterator_framed id _
    | db | snapshot => exact refused_framed _ .badarg
  | _ => exact refused_framed _ .badarg

theorem iteratorRange_framed (mode first last readOpts : Term) :
    Framed (R := R) (Call.iteratorRange mode first last readOpts).guards
      fun w => w.iteratorRange mode first last readOpts := by
  apply decoded_framed
  intro readOpts
  exact decoded_framed (rangeOptions first last readOpts) fun _ => read_framed _

/-- What the deletion in a family does needs the write guard, and it takes the read guard. -/
theorem deleteCf_framed (cfName key : Term) :
    Framed (R := R) (after cfName.decodeString fun _ => [writeGuard])
      fun w => w.deleteCf rt cfName key :=
  decoded_framed _ fun _ => writeShared_framed _

/-- Every other call takes the guards that what it does needs. -/
theorem step_framed (call : Call) (other : ∀ cfName key, call ≠ .deleteCf cfName key) :
    Framed (R := R) call.guards fun w => w.step rt call := by
  unfold World.step
  cases call with
  | put | delete | merge | writeBatch | deleteRange => exact write_framed _
  | latestSequenceNumber | getDbPath | get | iterator | prefixIterator | multiGet | multiGetCf
  | keyMayExist | snapshot => exact read_framed _
  | mergeCf | dropCf | putCf | deleteRangeCf | createCheckpoint =>
    exact decoded_framed _ fun _ => write_framed _
  | getCf | iteratorCf | prefixIteratorCf | keyMayExistCf | createBackup =>
    exact decoded_framed _ fun _ => read_framed _
  | createCf => exact decoded_framed _ fun _ => decoded_framed _ fun _ => write_framed _
  | iteratorRange mode first last readOpts => exact iteratorRange_framed mode first last readOpts
  | next resource => exact next_framed resource
  | snapshotGet | snapshotMultiGet | snapshotIterator =>
    exact decoded_framed _ fun _ => snapshotOnly_framed _ _
  | snapshotGetCf | snapshotIteratorCf =>
    exact decoded_framed _ fun _ => readSnapshot_framed _ _
  | snapshotMultiGetCf => exact readSnapshot_framed _ _
  | deleteCf cfName key => exact absurd rfl (other cfName key)

end ExRocket
