import ExRocket.Nif.Linearizable
import ExRocket.Nif.Poison

/-! A handle that stops. A call that panics with the write guard leaves a handle on which nothing
is done any more: whoever takes a guard of it later panics, and the store stays as it was. -/
namespace ExRocket

open Locks (Guard)
open TwoPhase (Answer Leads Untouched)

/-- The call takes a guard of the handle, to read or to write. -/
def Call.opensDb (call : Call) : Prop := ∃ g ∈ call.guards, g.lock = .db

def Call.writesDb (call : Call) : Prop := writeGuard ∈ call.guards

variable {rt : Rustler} {R : RocksDb} {w : World R} {n : Nat} {s : NifSession R}

namespace World

theorem read_refused (poisoned : w.handle.poisoned = true)
    (body : R.Store → NifResult (Made R)) : (w.read body).1 = .panicked := by
  rw [read, if_pos poisoned]

theorem write_refused (poisoned : w.handle.poisoned = true)
    (body : R.Store → NifResult (Term × R.Store)) : (w.write body).1 = .panicked := by
  rw [write, if_pos poisoned]

theorem writeShared_refused (poisoned : w.handle.poisoned = true)
    (body : R.Store → NifResult (Term × R.Store)) : (w.writeShared body).1 = .panicked := by
  rw [writeShared, if_pos poisoned]

theorem decoded_refused {α : Type} {argument : NifResult α} {body : α → Reply × World R}
    {guards : α → List (Guard Resource)} (opens : ∃ g ∈ after argument guards, g.lock = .db)
    (refused : ∀ value, (∃ g ∈ guards value, g.lock = .db) → (body value).1 = .panicked) :
    (w.decoded argument body).1 = .panicked := by
  obtain ⟨g, member, ofDb⟩ := opens
  obtain ⟨value, decodes, inside⟩ := mem_after member
  rw [decoded_ok w body decodes]
  exact refused value ⟨g, inside, ofDb⟩

/-- Whoever takes a guard of a poisoned handle panics. -/
theorem step_refused {call : Call} (poisoned : w.handle.poisoned = true) (opens : call.opensDb) :
    (w.step rt call).1 = .panicked := by
  cases call with
  | latestSequenceNumber | getDbPath | get | iterator | prefixIterator | multiGet | multiGetCf
  | keyMayExist | snapshot => exact read_refused poisoned _
  | put | delete | merge | writeBatch | deleteRange => exact write_refused poisoned _
  | mergeCf | dropCf | putCf | deleteRangeCf | createCheckpoint =>
    exact decoded_refused opens fun _ _ => write_refused poisoned _
  | deleteCf => exact decoded_refused opens fun _ _ => writeShared_refused poisoned _
  | getCf | iteratorCf | prefixIteratorCf | keyMayExistCf | createBackup =>
    exact decoded_refused opens fun _ _ => read_refused poisoned _
  | createCf =>
    exact decoded_refused opens fun _ inner =>
      decoded_refused inner fun _ _ => write_refused poisoned _
  | iteratorRange =>
    exact decoded_refused opens fun _ inner =>
      decoded_refused inner fun _ _ => read_refused poisoned _
  | snapshotGetCf | snapshotIteratorCf =>
    exact decoded_refused opens fun _ inner =>
      decoded_refused inner fun _ _ => congrArg Prod.fst (if_pos poisoned)
  | snapshotMultiGetCf =>
    exact decoded_refused opens fun _ _ => congrArg Prod.fst (if_pos poisoned)
  | snapshotGet | snapshotMultiGet | snapshotIterator =>
    obtain ⟨g, member, ofDb⟩ := opens
    obtain ⟨id, _, inside⟩ := mem_after member
    rw [List.mem_singleton.mp inside] at ofDb
    cases ofDb
  | next resource =>
    obtain ⟨g, member, ofDb⟩ := opens
    simp only [Call.guards, nextGuards] at member
    split at member
    · rw [List.mem_singleton.mp member] at ofDb
      cases ofDb
    · cases member

theorem write_poisoned (body : R.Store → NifResult (Term × R.Store))
    (panics : (w.write body).1 = .panicked) :
    (w.write body).2.handle = { w.handle with poisoned := true } := by
  rcases w.write_cases body with
    ⟨poisoned, result⟩ | ⟨_, ⟨t, db, _, result⟩ | ⟨_, result⟩ | ⟨_, result⟩⟩
  · rw [result, ← poisoned]
  · rw [result] at panics
    cases panics
  · rw [result] at panics
    cases panics
  · rw [result]
    rfl

theorem write_healthy (healthy : w.handle.poisoned = false)
    (body : R.Store → NifResult (Term × R.Store)) :
    (w.write body).2.handle.poisoned = true ↔ (w.write body).1 = .panicked := by
  rcases w.write_cases body with
    ⟨poisoned, _⟩ | ⟨_, ⟨t, db, _, result⟩ | ⟨_, result⟩ | ⟨_, result⟩⟩
  · rw [poisoned] at healthy
    cases healthy
  all_goals simp [result, healthy]

theorem writeShared_poisoned (body : R.Store → NifResult (Term × R.Store)) :
    (w.writeShared body).2.handle.poisoned = w.handle.poisoned := by
  rcases w.writeShared_cases body with
    ⟨_, result⟩ | ⟨_, ⟨t, db, _, result⟩ | ⟨stop, _, result⟩⟩
  all_goals rw [result]
  rfl

/-- The call writes under the write guard, or takes none and poisons nothing. -/
inductive Form (rt : Rustler) (w : World R) (call : Call) : Prop where
  | writes (body : R.Store → NifResult (Term × R.Store)) : call.writesDb →
      w.step rt call = w.write body → Form rt w call
  | other : ¬ call.writesDb → (w.step rt call).2.handle.poisoned = w.handle.poisoned →
      Form rt w call

theorem reads_not_writes {call : Call} (reads : call.reads = true) : ¬ call.writesDb := by
  cases call with
  | put | delete | merge | mergeCf | writeBatch | createCf | dropCf | putCf | deleteCf | deleteRange
  | deleteRangeCf | createCheckpoint => cases reads
  | next resource =>
    simp only [Call.writesDb, Call.guards, nextGuards]
    split <;> simp [writeGuard, iterGuard]
  | getCf | iteratorCf | prefixIteratorCf | keyMayExistCf | createBackup | snapshotGet
  | snapshotMultiGet | snapshotIterator | snapshotMultiGetCf =>
    intro member
    obtain ⟨_, _, inside⟩ := mem_after member
    simp [writeGuard, readGuard, snapGuard] at inside
  | iteratorRange | snapshotGetCf | snapshotIteratorCf =>
    intro member
    obtain ⟨_, _, inner⟩ := mem_after member
    obtain ⟨_, _, inside⟩ := mem_after inner
    simp [writeGuard, readGuard, snapGuard] at inside
  | _ => simp [Call.writesDb, Call.guards, writeGuard, readGuard]

theorem form_decoded {α : Type} {argument : NifResult α} {call : Call}
    {body : α → R.Store → NifResult (Term × R.Store)}
    (guards : call.guards = after argument fun _ => [writeGuard])
    (step : w.step rt call = w.decoded argument fun value => w.write (body value)) :
    Form rt w call := by
  cases decodes : argument with
  | ok value =>
    refine .writes (body value) ?_ (step.trans (decoded_ok w _ decodes))
    rw [Call.writesDb, guards, decodes]
    exact List.mem_singleton_self _
  | error stop =>
    rw [decodes] at guards step
    refine .other ?_ ?_
    · rw [Call.writesDb, guards]
      exact List.not_mem_nil
    · rw [step]
      rfl

theorem step_form (rt : Rustler) (w : World R) (call : Call) : Form rt w call := by
  cases call with
  | writeBatch txs => exact .writes (applyBatch rt txs) (List.mem_singleton_self _) rfl
  | put key val =>
    exact .writes (fun db => return done db (.issue (.put none _ _)))
      (List.mem_singleton_self _) rfl
  | delete key =>
    exact .writes (fun db => return done db (.issue (.delete none _)))
      (List.mem_singleton_self _) rfl
  | merge key operand =>
    exact .writes (fun db => return done db (.issue (.merge none _ _)))
      (List.mem_singleton_self _) rfl
  | deleteRange keyFrom keyTo =>
    exact .writes (fun db => return done db (.write [.deleteRange none _ _]))
      (List.mem_singleton_self _) rfl
  | mergeCf | dropCf | putCf | deleteRangeCf | createCheckpoint => exact form_decoded rfl rfl
  | createCf cfName opts =>
    cases named : cfName.decodeString with
    | ok name =>
      have guards : (Call.createCf cfName opts).guards =
          after (decodeOptions opts) fun _ => [writeGuard] := by
        rw [Call.guards, named]
        rfl
      exact form_decoded guards (decoded_ok w _ named)
    | error stop =>
      have guards : (Call.createCf cfName opts).guards = [] := by
        rw [Call.guards, named]
        rfl
      have step : w.step rt (.createCf cfName opts) = (stop.reply, w) := by
        rw [step, createCf, named]
        rfl
      refine .other ?_ (by rw [step])
      rw [Call.writesDb, guards]
      exact List.not_mem_nil
  | deleteCf cfName key =>
    refine .other ?_ ?_
    · intro member
      obtain ⟨_, _, inside⟩ := mem_after member
      simp [writeGuard, readGuard] at inside
    · cases named : cfName.decodeString with
      | ok name =>
        rw [step, deleteCf, decoded_ok w _ named]
        exact writeShared_poisoned _
      | error stop =>
        rw [step, deleteCf, named]
        rfl
  | _ => exact .other (reads_not_writes rfl) (by rw [step_reads rt w rfl])

/-- A call poisons the handle exactly if it panics with the write guard. -/
theorem step_poisons_iff (healthy : w.handle.poisoned = false) (call : Call) :
    (w.step rt call).2.handle.poisoned = true ↔
      call.writesDb ∧ (w.step rt call).1 = .panicked := by
  cases step_form rt w call with
  | writes body writes step =>
    rw [step, write_healthy healthy]
    exact ⟨fun panics => ⟨writes, panics⟩, And.right⟩
  | other reads same =>
    rw [same, healthy]
    exact ⟨fun impossible => (by cases impossible), fun ⟨writes, _⟩ => absurd writes reads⟩

theorem step_stops {call : Call} (writes : call.writesDb)
    (panics : (w.step rt call).1 = .panicked) :
    (w.step rt call).2.handle = { w.handle with poisoned := true } := by
  cases step_form rt w call with
  | writes body _ step =>
    rw [step] at panics ⊢
    exact write_poisoned body panics
  | other reads _ => exact absurd writes reads

end World

/-- The call panicked with the write guard. -/
def Broke (a : Answer Reply Call) : Prop := a.call.writesDb ∧ a.reply = .panicked

theorem run_poisons_iff {answers : List (Answer Reply Call)} (healthy : w.handle.poisoned = false)
    (replies : answers.map Answer.reply = (w.run rt (answers.map Answer.call)).1) :
    (w.run rt (answers.map Answer.call)).2.handle.poisoned = true ↔ ∃ a ∈ answers, Broke a := by
  induction answers generalizing w with
  | nil => simp [healthy]
  | cons a answers ih =>
    rw [List.map_cons, List.map_cons, World.run_cons] at replies
    obtain ⟨first, rest⟩ := List.cons.inj replies
    rw [List.map_cons, World.run_cons]
    have here : (w.step rt a.call).2.handle.poisoned = true ↔ _ :=
      World.step_poisons_iff healthy a.call
    rw [← first] at here
    cases after : (w.step rt a.call).2.handle.poisoned with
    | true =>
      rw [World.run_poisoned _ after, after]
      exact iff_of_true rfl ⟨a, List.mem_cons_self, here.mp after⟩
    | false =>
      have fine : ¬ Broke a := by
        intro broke
        have poisoned := here.mpr broke
        rw [after] at poisoned
        cases poisoned
      rw [ih after rest]
      simp [fine]

theorem run_refused {answers : List (Answer Reply Call)} (poisoned : w.handle.poisoned = true)
    (replies : answers.map Answer.reply = (w.run rt (answers.map Answer.call)).1) :
    ∀ b ∈ answers, b.call.opensDb → b.reply = .panicked := by
  induction answers generalizing w with
  | nil => exact fun _ impossible => absurd impossible List.not_mem_nil
  | cons a answers ih =>
    rw [List.map_cons, List.map_cons, World.run_cons] at replies
    obtain ⟨first, rest⟩ := List.cons.inj replies
    have kept := World.step_poisoned rt a.call poisoned
    refine List.forall_mem_cons.mpr ⟨?_, ih (by rw [kept, poisoned]) rest⟩
    intro opens
    rw [first]
    exact World.step_refused poisoned opens

/-- A session fails by stopping. Its handle is poisoned exactly if a call has panicked with the
write guard; from that call on nothing is written, and who takes a guard of the handle panics. -/
theorem session_fails_stop {policy : Nat → Locks.Policy Resource}
    (leads : Leads (nifs rt R) Offered policy (.opened w) n s)
    (unwritten : ∀ j ∈ s.jobs, j.reply = none → writeGuard ∉ j.locks.held)
    (healthy : w.handle.poisoned = false) :
    (s.world.handle.poisoned = true ↔ ∃ a ∈ s.history, Broke a) ∧
      ∀ before a later, s.history = before ++ a :: later → Broke a →
        s.world.handle.db = (w.run rt (before.map Answer.call)).2.handle.db ∧
          ∀ b ∈ later, b.call.opensDb → b.reply = .panicked := by
  have handle := linearized_handle leads unwritten
  constructor
  · rw [handle]
    exact run_poisons_iff healthy (linearized leads).1
  · intro before a later history broke
    have reply := linearized_at leads history
    have split : s.history = (before ++ [a]) ++ later := by simp [history]
    have rest := (linearized_split leads split).2
    have stops : ((w.run rt (before.map Answer.call)).2.step rt a.call).2.handle = _ :=
      World.step_stops broke.1 (reply.symm.trans broke.2)
    have after : (w.run rt ((before ++ [a]).map Answer.call)).2 =
        ((w.run rt (before.map Answer.call)).2.step rt a.call).2 := by
      rw [List.map_append, run_append_world]
      rfl
    rw [← after] at stops
    have poisoned : (w.run rt ((before ++ [a]).map Answer.call)).2.handle.poisoned = true := by
      rw [stops]
    constructor
    · rw [handle, TwoPhase.Session.calls, split, List.map_append, run_append_world,
        World.run_poisoned _ poisoned, stops]
    · exact run_refused poisoned rest

/-- A put to a family that there is not. -/
def brokenPut : Call := .putCf (.binary [120]) (.binary [97]) (.binary [49])

/-- It breaks the handle for a get that is already there. -/
theorem session_fails_stop_put :
    (Memory.world.run Memory.rustler [brokenPut, getA]).2.handle.db = Memory.empty ∧
      ∀ b ∈ [(⟨1, getA, .panicked⟩ : Answer Reply Call)], b.call.opensDb → b.reply = .panicked := by
  have offered : AllOffered Memory.rustler Memory.world [[brokenPut, getA]] :=
    ⟨calls_offered _ rfl, trivial⟩
  obtain ⟨_, leads⟩ := rounds_come offered 0 []
  have history : answers Memory.rustler Memory.world 0 [brokenPut, getA] =
      [] ++ ⟨0, brokenPut, .panicked⟩ :: [⟨1, getA, .panicked⟩] := rfl
  have broke : Broke ⟨0, brokenPut, .panicked⟩ := ⟨List.mem_singleton_self _, rfl⟩
  exact (session_fails_stop leads (by simp) rfl).2 _ _ _ history broke

end ExRocket
