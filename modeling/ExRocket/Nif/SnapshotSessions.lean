import ExRocket.Nif.Linearizable
import ExRocket.Nif.SnapshotReads

/-! A snapshot that any number of callers read at the same time. No call changes it, so whatever
is written, dropped or poisoned meanwhile, they all find what the store held when it was taken. -/
namespace ExRocket

open Rust
open TwoPhase (Answer Leads)

variable {rt : Rustler} {R : RocksDb} {w : World R}

def World.snapAt (w : World R) (id : Nat) : Option R.Snap :=
  w.snapshots[id]?.map SnapshotResource.snap

/-- The snapshots that there are stay, poisoned or not. -/
def KeepsSnaps (w v : World R) : Prop :=
  ∀ id snap, w.snapAt id = some snap → v.snapAt id = some snap

theorem same_keepsSnaps {v : World R} (same : v.snapshots = w.snapshots) : KeepsSnaps w v := by
  intro id snap here
  rw [World.snapAt, same]
  exact here

theorem release_keepsSnaps (made : Made R) : KeepsSnaps w (w.release made).2 := by
  cases made with
  | term | iterator => exact same_keepsSnaps rfl
  | snapshot taken =>
    intro id snap here
    obtain ⟨resource, found, rfl⟩ := Option.map_eq_some_iff.mp here
    have inside := (List.getElem?_eq_some_iff.mp found).1
    simp only [World.snapAt, World.release, List.getElem?_append_left inside, found]
    rfl

theorem read_keepsSnaps (body : R.Store → NifResult (Made R)) : KeepsSnaps w (w.read body).2 := by
  unfold World.read
  split
  · exact same_keepsSnaps rfl
  · split
    · exact release_keepsSnaps _
    · exact same_keepsSnaps rfl

theorem write_keepsSnaps (body : R.Store → NifResult (Term × R.Store)) :
    KeepsSnaps w (w.write body).2 := by
  apply same_keepsSnaps
  rcases w.write_cases body with
    ⟨_, result⟩ | ⟨_, ⟨_, _, _, result⟩ | ⟨_, result⟩ | ⟨_, result⟩⟩ <;>
    exact congrArg (fun r => r.2.snapshots) result

theorem writeShared_keepsSnaps (body : R.Store → NifResult (Term × R.Store)) :
    KeepsSnaps w (w.writeShared body).2 := by
  apply same_keepsSnaps
  rcases w.writeShared_cases body with ⟨_, result⟩ | ⟨_, ⟨_, _, _, result⟩ | ⟨_, _, result⟩⟩ <;>
    exact congrArg (fun r => r.2.snapshots) result

theorem decoded_keepsSnaps {α : Type} (argument : NifResult α) {body : α → Reply × World R}
    (keeps : ∀ value, KeepsSnaps w (body value).2) : KeepsSnaps w (w.decoded argument body).2 := by
  cases argument with
  | ok value => exact keeps value
  | error stop => exact same_keepsSnaps rfl

/-- A panic under the mutex poisons it, and leaves the snapshot in it. -/
theorem lockSnapshot_keepsSnaps (id : Nat) (body : R.Snap → NifResult (Made R)) :
    KeepsSnaps w (w.lockSnapshot id body).2 := by
  unfold World.lockSnapshot
  split
  · exact same_keepsSnaps rfl
  · rename_i resource found
    split
    · exact same_keepsSnaps rfl
    · split
      · exact release_keepsSnaps _
      · exact same_keepsSnaps rfl
      · intro other snap here
        simp only [World.snapAt] at here ⊢
        by_cases same : id = other
        · subst same
          have inside := (List.getElem?_eq_some_iff.mp found).1
          rw [List.getElem?_set_self inside]
          rw [found] at here
          exact here
        · rw [List.getElem?_set_ne same]
          exact here

theorem readSnapshot_keepsSnaps (resource : Term) (body : R.Store → R.Snap → NifResult (Made R)) :
    KeepsSnaps w (w.readSnapshot resource body).2 := by
  apply decoded_keepsSnaps
  intro id
  split
  · exact same_keepsSnaps rfl
  · exact lockSnapshot_keepsSnaps id _

theorem lockIterator_keepsSnaps (id : Nat) (body : R.Iter → Term × R.Iter) :
    KeepsSnaps w (w.lockIterator id body).2 := by
  apply same_keepsSnaps
  unfold World.lockIterator
  split
  · rfl
  · split <;> rfl

theorem next_keepsSnaps (resource : Term) : KeepsSnaps w (w.next resource).2 := by
  unfold World.next
  split
  · exact lockIterator_keepsSnaps _ _
  · exact same_keepsSnaps rfl

theorem step_keepsSnaps (rt : Rustler) (call : Call) : KeepsSnaps w (w.step rt call).2 := by
  unfold World.step
  cases call with
  | put | delete | merge | writeBatch | deleteRange => exact write_keepsSnaps _
  | latestSequenceNumber | getDbPath | get | iterator | prefixIterator | multiGet | multiGetCf
  | keyMayExist | snapshot => exact read_keepsSnaps _
  | mergeCf | dropCf | putCf | deleteRangeCf | createCheckpoint =>
    exact decoded_keepsSnaps _ fun _ => write_keepsSnaps _
  | getCf | iteratorCf | prefixIteratorCf | keyMayExistCf | createBackup =>
    exact decoded_keepsSnaps _ fun _ => read_keepsSnaps _
  | deleteCf => exact decoded_keepsSnaps _ fun _ => writeShared_keepsSnaps _
  | createCf =>
    exact decoded_keepsSnaps _ fun _ => decoded_keepsSnaps _ fun _ => write_keepsSnaps _
  | iteratorRange =>
    exact decoded_keepsSnaps _ fun _ => decoded_keepsSnaps _ fun _ => read_keepsSnaps _
  | next resource => exact next_keepsSnaps resource
  | snapshotGet | snapshotMultiGet | snapshotIterator =>
    exact decoded_keepsSnaps _ fun _ => lockSnapshot_keepsSnaps _ _
  | snapshotGetCf | snapshotIteratorCf =>
    exact decoded_keepsSnaps _ fun _ => readSnapshot_keepsSnaps _ _
  | snapshotMultiGetCf => exact readSnapshot_keepsSnaps _ _

theorem run_keepsSnaps (rt : Rustler) (calls : List Call) : KeepsSnaps w (w.run rt calls).2 := by
  induction calls generalizing w with
  | nil => exact same_keepsSnaps rfl
  | cons call calls ih =>
    intro id snap here
    exact ih id snap (step_keepsSnaps rt call id snap here)

theorem snapshot_healthy (taken : (w.step rt .snapshot).1.failed = false) :
    w.handle.poisoned = false := by
  cases healthy : w.handle.poisoned with
  | false => rfl
  | true =>
    rw [World.step, World.snapshot, World.read, if_pos healthy] at taken
    cases taken

/-- A function on a snapshot that is there either finds its mutex poisoned or reads it. -/
theorem lockSnapshot_reads {id : Nat} {snap : R.Snap} (here : w.snapAt id = some snap)
    {body : R.Snap → NifResult (Made R)} {t : Term} (returns : body snap = .ok (.term t))
    (calm : (w.lockSnapshot id body).1 ≠ .panicked) : (w.lockSnapshot id body).1 = .term t := by
  obtain ⟨⟨taken, poisoned⟩, found, rfl⟩ := Option.map_eq_some_iff.mp here
  cases poisoned with
  | true =>
    refine absurd ?_ calm
    simp only [World.lockSnapshot, found]
    rfl
  | false => rw [World.lockSnapshot_ok found returns]; rfl

theorem snapshotGet_reads {id : Nat} {snap : R.Snap} (here : w.snapAt id = some snap) {key : Term}
    (calm : (w.step rt (.snapshotGet (snapTerm id) key)).1 ≠ .panicked) :
    (w.step rt (.snapshotGet (snapTerm id) key)).1 =
      .term (found (R.snapGet snap none (key.lazyBinary rt))) := by
  have locks : w.step rt (.snapshotGet (snapTerm id) key) = _ := World.onSnapshot_get w id key
  rw [locks] at calm ⊢
  exact lockSnapshot_reads here rfl calm

theorem snapshotMultiGet_reads {id : Nat} {snap : R.Snap} (here : w.snapAt id = some snap)
    {keys : Term} {texts : List Str} (decodes : decodeKeys rt Term.decodeString keys = .ok texts)
    (calm : (w.step rt (.snapshotMultiGet (snapTerm id) keys)).1 ≠ .panicked) :
    (w.step rt (.snapshotMultiGet (snapTerm id) keys)).1 =
      .term (foundAll (R.snapMultiGet snap (texts.map fun text => (none, intoBytes text)))) := by
  have locks : w.step rt (.snapshotMultiGet (snapTerm id) keys) = _ :=
    World.onSnapshot_multiGet w id keys
  rw [locks] at calm ⊢
  exact lockSnapshot_reads here (by rw [decodes]; rfl) calm

/-- A snapshot that was taken in a session is there, as it was taken, for every later call. -/
theorem snapshot_reaches {policy : Nat → Locks.Policy Resource} {n : Nat} {s : NifSession R}
    (leads : Leads (nifs rt R) Offered policy (.opened w) n s)
    {before between later : List (Answer Reply Call)} {a g : Answer Reply Call}
    (history : s.history = before ++ a :: (between ++ g :: later)) (takes : a.call = .snapshot)
    (taken : a.reply.failed = false) :
    ∃ id, a.reply = .term (.tuple [.ok, snapTerm id]) ∧
      (w.run rt ((before ++ a :: between).map Answer.call)).2.snapAt id =
        some (R.snapshot (w.run rt (before.map Answer.call)).2.handle.db) := by
  have first := linearized_at leads history
  rw [takes] at first
  rw [first] at taken
  have opened := snapshot_healthy taken
  rw [World.step_snapshot opened] at first
  refine ⟨_, first, ?_⟩
  have world : (w.run rt ((before ++ a :: between).map Answer.call)).2 =
      (((w.run rt (before.map Answer.call)).2.step rt .snapshot).2.run rt
        (between.map Answer.call)).2 := by
    rw [List.map_append, run_append_world, List.map_cons, takes]
    rfl
  have here : ((w.run rt (before.map Answer.call)).2.step rt .snapshot).2.snapAt
      (w.run rt (before.map Answer.call)).2.snapshots.length =
        some (R.snapshot (w.run rt (before.map Answer.call)).2.handle.db) := by
    rw [World.step_snapshot opened]
    simp [World.snapAt]
  rw [world]
  exact run_keepsSnaps rt (between.map Answer.call) _ _ here

/-- Whoever reads a snapshot, at the same time as others and as any other calls, finds what the
store held when the snapshot was taken. -/
theorem session_snapshot_stays (frozen : R.Frozen) {policy : Nat → Locks.Policy Resource} {n : Nat}
    {s : NifSession R} (leads : Leads (nifs rt R) Offered policy (.opened w) n s)
    {before between later : List (Answer Reply Call)} {a g : Answer Reply Call}
    (history : s.history = before ++ a :: (between ++ g :: later)) (takes : a.call = .snapshot)
    (taken : a.reply.failed = false) (calm : g.reply ≠ .panicked) :
    ∃ id, a.reply = .term (.tuple [.ok, snapTerm id]) ∧
      (∀ key, g.call = .snapshotGet (snapTerm id) key → g.reply =
        .term (found (R.get (w.run rt (before.map Answer.call)).2.handle.db none
          (key.lazyBinary rt)))) ∧
      ∀ keys texts, g.call = .snapshotMultiGet (snapTerm id) keys →
        decodeKeys rt Term.decodeString keys = .ok texts → g.reply =
        .term (foundAll (R.multiGet (w.run rt (before.map Answer.call)).2.handle.db
          (texts.map fun text => (none, intoBytes text)))) := by
  obtain ⟨id, reply, there⟩ := snapshot_reaches leads history takes taken
  have split : s.history = (before ++ a :: between) ++ g :: later := by simp [history]
  have second := linearized_at leads split
  refine ⟨id, reply, ?_, ?_⟩
  · intro key reads
    rw [reads] at second
    rw [second] at calm ⊢
    rw [snapshotGet_reads there calm, frozen.get]
  · intro keys texts reads decodes
    rw [reads] at second
    rw [second] at calm ⊢
    rw [snapshotMultiGet_reads there decodes calm, frozen.multiGet]

theorem snapshotGet_offered {w : World R} {id : Nat} (taken : id < w.snapshots.length)
    (key : Term) : Offered w (.snapshotGet (snapTerm id) key) := by
  refine ⟨?_, by simp⟩
  intro g member
  rw [List.mem_singleton.mp member]
  exact World.snapshot_mem_resources.mpr taken

/-- A snapshot is taken, and then read while a key is put. -/
theorem session_snapshot_stays_put : ∃ id,
    Reply.term (.tuple [.ok, snapTerm 0]) = .term (.tuple [.ok, snapTerm id]) ∧
      (∀ key, Call.snapshotGet (snapTerm 0) (.binary [97]) = .snapshotGet (snapTerm id) key →
        Reply.term (.atom "undefined") = .term (found (Memory.get Memory.empty none
          (key.lazyBinary Memory.rustler)))) ∧
      ∀ keys texts,
        Call.snapshotGet (snapTerm 0) (.binary [97]) = .snapshotMultiGet (snapTerm id) keys →
        decodeKeys Memory.rustler Term.decodeString keys = .ok texts →
        Reply.term (.atom "undefined") = .term (foundAll (Memory.rocksDb.multiGet Memory.empty
          (texts.map fun text => (none, intoBytes text)))) := by
  have offered : AllOffered Memory.rustler Memory.world
      [[.snapshot], [putA, .snapshotGet (snapTerm 0) (.binary [97])]] := by
    refine ⟨calls_offered _ rfl, List.forall_mem_cons.mpr ⟨call_offered _ rfl, ?_⟩, trivial⟩
    exact List.forall_mem_singleton.mpr (snapshotGet_offered Nat.zero_lt_one _)
  obtain ⟨_, leads⟩ := rounds_come offered 0 []
  have history : answers Memory.rustler Memory.world 0
      [.snapshot, putA, .snapshotGet (snapTerm 0) (.binary [97])] =
      [] ++ ⟨0, .snapshot, .term (.tuple [.ok, snapTerm 0])⟩ ::
        ([⟨1, putA, .term .ok⟩] ++
          ⟨2, .snapshotGet (snapTerm 0) (.binary [97]), .term (.atom "undefined")⟩ :: []) := rfl
  exact session_snapshot_stays World.memory_frozen leads history rfl rfl (by simp)

end ExRocket
