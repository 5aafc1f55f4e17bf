import ExRocket.Nif.Guards

/-! Any number of calls at once, on any number of databases, snapshots and iterators. A call
takes its guard of a database before that of a snapshot and takes no lock twice, so that
the locks have an order and not every call waits for another. -/
namespace ExRocket

open Locks

inductive Lock where
  | db (id : Nat)
  | snapshot (id : Nat)
  | iterator (id : Nat)

def Lock.rank : Lock → Nat
  | .db _ => 0
  | .snapshot _ | .iterator _ => 1

/-- Which of the node's resources the terms of one call stand for. A snapshot may come with
the handle of another database than it was taken from. -/
structure Handles where
  db : Nat
  snapshot : Nat → Nat
  iterator : Nat → Nat

namespace Handles

def lock (handles : Handles) : Resource → Lock
  | .db => .db handles.db
  | .snapshot id => .snapshot (handles.snapshot id)
  | .iterator id => .iterator (handles.iterator id)

def guard (handles : Handles) (g : Guard Resource) : Guard Lock := ⟨handles.lock g.lock, g.access⟩

end Handles

/-- The functions that are given no resource: they work on a path, and take no lock. -/
inductive PathCall where
  | lxcode | open_ | openForReadOnly | destroy | repair | openCf | openCfForReadOnly | listCf
  | getBackupInfo | purgeOldBackups | restoreFromBackup

inductive Request where
  | call (handles : Handles) (made : Call)
  | path (made : PathCall)

def Request.guards : Request → List (Guard Lock)
  | .call handles made => made.guards.map handles.guard
  | .path _ => []

def Requested (guards : List (Guard Lock)) : Prop := ∃ request : Request, request.guards = guards

theorem Handles.lock_rank (handles : Handles) (r : Resource) :
    (handles.lock r).rank = r.rank := by
  cases r <;> rfl

theorem requested_sorted (guards : List (Guard Lock)) (requested : Requested guards) :
    guards.Pairwise fun g h => g.lock.rank < h.lock.rank := by
  obtain ⟨request, rfl⟩ := requested
  cases request with
  | call handles made =>
    rw [Request.guards, List.pairwise_map]
    refine (guards_ranked made).imp ?_
    intro g h below
    simpa [Handles.guard, Handles.lock_rank] using below
  | path => exact .nil

/-- Whatever the calls in progress and whoever the lock lets in first, one of them can go on. -/
theorem calls_deadlock_free {policy : Nat → Policy Lock} {n : Nat} {callers : List (Caller Lock)}
    (reached : Locks.Reached policy Requested n callers) (busy : callers ≠ []) :
    ∃ c ∈ callers, ¬ (policy n).Blocked callers c :=
  deadlock_free reached requested_sorted busy

def oneDb : Handles := ⟨0, id, id⟩

/-- A reader holds the handle, a writer waits for it, and a second reader behind the writer. -/
def queued : List (Caller Lock) :=
  [⟨[⟨.db 0, .shared⟩], [], false⟩, ⟨[], [⟨.db 0, .exclusive⟩], true⟩,
    ⟨[], [⟨.db 0, .shared⟩], true⟩]

theorem queued_reached : Locks.Reached (fun _ => Policy.writersFirst) Requested 7 queued := by
  have reads : Requested [⟨.db 0, .shared⟩] := ⟨.call oneDb .snapshot, rfl⟩
  have writes : Requested [⟨.db 0, .exclusive⟩] := ⟨.call oneDb (.delete .nil), rfl⟩
  have nobody : Locks.Reached (fun _ => Policy.writersFirst) Requested 0 [] := .start
  have arrives := nobody.step (.arrive reads)
  have asks := arrives.step (.move (i := 0) rfl (.ask rfl (by simp [Caller.arriving])))
  have holds := asks.step (.move (i := 0) rfl (.take rfl ⟨by simp [heldBy, Caller.arriving],
    by simp [askedBy, Caller.asked, Caller.arriving]⟩))
  have writer := holds.step (.arrive writes)
  have writerAsks := writer.step (.move (i := 1) rfl (.ask rfl (by simp [Caller.arriving])))
  have reader := writerAsks.step (.arrive reads)
  exact reader.step (.move (i := 2) rfl (.ask rfl (by simp [Caller.arriving])))

theorem calls_deadlock_free_queued :
    Policy.writersFirst.Blocked queued ⟨[], [⟨.db 0, .shared⟩], true⟩ ∧
      ∃ c ∈ queued, ¬ Policy.writersFirst.Blocked queued c := by
  constructor
  · refine blocked_iff.mpr ⟨⟨.db 0, .shared⟩, rfl, ?_⟩
    rintro ⟨_, behind⟩
    cases behind rfl ⟨.db 0, .exclusive⟩ (by simp [queued, askedBy, Caller.asked]) rfl
  · exact calls_deadlock_free queued_reached (by simp [queued])

end ExRocket
