import ExRocket.Nif.Enumerate
import ExRocket.Nif.Linearizable

/-! An iterator that any number of callers advance at the same time. It deals out the entries
that it was placed on, each to one caller and in their order, whatever is written meanwhile. -/
namespace ExRocket

open Rust Walk
open Locks (Guard)
open TwoPhase (Answer Leads)

/-- The calls of next on this iterator. -/
def Call.advances (id : Nat) : Call → Bool
  | .next (.resource (.iterator other)) => other == id
  | _ => false

def dealt (id : Nat) (answers : List (Answer Reply Call)) : List (Answer Reply Call) :=
  answers.filter fun a => a.call.advances id

variable {rt : Rustler} {R : RocksDb} {w : World R} {id : Nat}

theorem after_avoids {α : Type} {argument : NifResult α} {guards : α → List (Guard Resource)}
    {r : Resource} (avoids : ∀ value, ∀ g ∈ guards value, g.lock ≠ r) :
    ∀ g ∈ after argument guards, g.lock ≠ r := by
  cases argument with
  | ok value => exact avoids value
  | error stop => exact fun _ member => absurd member List.not_mem_nil

theorem nextGuards_avoid {resource : Term} (other : (Call.next resource).advances id = false) :
    ∀ g ∈ nextGuards resource, g.lock ≠ .iterator id := by
  unfold nextGuards
  split
  · rename_i i
    have apart : i ≠ id := by simpa [Call.advances] using other
    simpa [iterGuard] using apart
  · simp

theorem guards_avoid_iterator {call : Call} (other : call.advances id = false) :
    ∀ g ∈ call.guards, g.lock ≠ .iterator id := by
  unfold Call.guards
  cases call with
  | next resource => exact nextGuards_avoid other
  | mergeCf | dropCf | putCf | deleteRangeCf | createCheckpoint | getCf | deleteCf | iteratorCf
  | prefixIteratorCf | keyMayExistCf | createBackup | snapshotGet | snapshotMultiGet
  | snapshotIterator =>
    exact after_avoids fun _ => by simp [readGuard, writeGuard, snapGuard]
  | createCf | iteratorRange =>
    exact after_avoids fun _ => after_avoids fun _ => by simp [readGuard, writeGuard]
  | snapshotGetCf | snapshotIteratorCf =>
    exact after_avoids fun _ => after_avoids fun _ => by simp [readGuard, snapGuard]
  | snapshotMultiGetCf => exact after_avoids fun _ => by simp [readGuard, snapGuard]
  | _ => simp [readGuard, writeGuard]

theorem step_keeps_iterator {resource : IteratorResource R} (call : Call)
    (other : call.advances id = false) (here : w.iterators[id]? = some resource) :
    (w.step rt call).2.iterators[id]? = some resource := by
  have known : .iterator id ∈ w.resources :=
    World.iterator_mem_resources.mpr (List.getElem?_eq_some_iff.mp here).1
  have keeps : ∀ guards : List (Guard Resource), (∀ g ∈ guards, g.lock ≠ .iterator id) →
      Framed (R := R) guards (fun w => w.step rt call) →
      (w.step rt call).2.iterators[id]? = some resource := by
    intro guards avoid framed
    have same : (w.step rt call).2.SameAt w (.iterator id) :=
      framed.writes w _ known fun g member locks => absurd locks (avoid g member)
    exact Eq.trans same here
  by_cases deletion : ∃ cfName key, call = .deleteCf cfName key
  · obtain ⟨cfName, key, rfl⟩ := deletion
    exact keeps _ (after_avoids fun _ => by simp [writeGuard]) (deleteCf_framed cfName key)
  · exact keeps _ (guards_avoid_iterator other)
      (step_framed call fun cfName key same => deletion ⟨cfName, key, same⟩)

theorem advances_eq {call : Call} (advances : call.advances id = true) :
    call = .next (.resource (.iterator id)) := by
  unfold Call.advances at advances
  split at advances
  · rw [beq_iff_eq.mp advances]
  · cases advances

/-- The replies of a run to the calls of next on an iterator are what draining it yields. -/
theorem run_deals {iter : R.Iter} {answers : List (Answer Reply Call)}
    (here : w.iterators[id]? = some ⟨iter, false⟩)
    (replies : answers.map Answer.reply = (w.run rt (answers.map Answer.call)).1) :
    (dealt id answers).map Answer.reply =
      (R.drain (dealt id answers).length iter).map nextReply := by
  induction answers generalizing w iter with
  | nil => rfl
  | cons a answers ih =>
    rw [List.map_cons, List.map_cons, World.run_cons] at replies
    obtain ⟨first, rest⟩ := List.cons.inj replies
    cases advances : a.call.advances id with
    | false =>
      have kept : dealt id (a :: answers) = dealt id answers :=
        List.filter_cons_of_neg (by simp [advances])
      rw [kept]
      exact ih (step_keeps_iterator a.call advances here) rest
    | true =>
      have taken : dealt id (a :: answers) = a :: dealt id answers :=
        List.filter_cons_of_pos advances
      have step : w.step rt a.call = w.next (.resource (.iterator id)) := by
        rw [advances_eq advances]
        rfl
      rw [step, World.next_reply here] at first rest
      have inside := (List.getElem?_eq_some_iff.mp here).1
      have moved := ih (List.getElem?_set_self inside) rest
      rw [taken, List.map_cons, List.length_cons, RocksDb.drain, List.map_cons, first, moved]

theorem release_fresh (w : World R) (iter : R.Iter) :
    (w.release (.iterator iter)).2.iterators[w.iterators.length]? = some ⟨iter, false⟩ := by
  simp [World.release]

/-- An iterator that a session has placed on entries deals them out to all who advance it. -/
theorem placed_deals (C : R.Cursors) {policy : Nat → Locks.Policy Resource} {n : Nat}
    {s : NifSession R} (leads : Leads (nifs rt R) Offered policy (.opened w) n s)
    {before later : List (Answer Reply Call)} {a : Answer Reply Call}
    (history : s.history = before ++ a :: later) {iter : R.Iter}
    {entries : List (Bytes × Bytes)} {lower upper : Option Bytes} {seek : Seek Bytes}
    (step : (w.run rt (before.map Answer.call)).2.step rt a.call =
      (w.run rt (before.map Answer.call)).2.release (.iterator iter))
    (shows_ : C.Shows iter (place lower upper entries seek)) (sorted : Sorted entries) :
    ∃ id, a.reply = .term (.tuple [.ok, .resource (.iterator id)]) ∧
      (dealt id later).map Answer.reply =
        repliesOf (selected lower upper entries seek) (dealt id later).length := by
  have replies := (linearized_split leads history).2
  rw [List.map_cons, List.map_cons, World.run_cons, step] at replies
  obtain ⟨first, rest⟩ := List.cons.inj replies
  refine ⟨_, first, ?_⟩
  rw [run_deals (release_fresh _ iter) rest, drain_shows C _ shows_, yields_place sorted,
    List.map_map, ← padded_replies]
  rfl

/-- An iterator that was opened in a session deals out the entries that there were when it was
opened, to all who advance it together. -/
theorem session_shares_iterator (C : R.Cursors) {policy : Nat → Locks.Policy Resource} {n : Nat}
    {s : NifSession R} (leads : Leads (nifs rt R) Offered policy (.opened w) n s)
    {before later : List (Answer Reply Call)} {a : Answer Reply Call}
    (history : s.history = before ++ a :: later) {mode : Term} {m : IteratorMode}
    {entries : List (Bytes × Bytes)} {lower upper : Option Bytes}
    (opens : World.Opens C (w.run rt (before.map Answer.call)).2 mode a.call entries lower upper)
    (decodes : iteratorMode mode = .ok m) (sorted : Sorted entries) :
    ∃ id, a.reply = .term (.tuple [.ok, .resource (.iterator id)]) ∧
      (dealt id later).map Answer.reply =
        repliesOf (selected lower upper entries (seekOf m)) (dealt id later).length := by
  obtain ⟨iter, step, shows_⟩ := World.opens_step rt C opens decodes sorted
  exact placed_deals C leads history step shows_ sorted

theorem next_offered {w : World R} {id : Nat} (opened : id < w.iterators.length) :
    Offered w (.next (.resource (.iterator id))) := by
  refine ⟨?_, by simp⟩
  intro g member
  rw [List.mem_singleton.mp member]
  exact World.iterator_mem_resources.mpr opened

def twoKeysWorld : World Memory.rocksDb := World.opened Memory.twoKeys

def nextCall : Call := .next (.resource (.iterator 0))

/-- Two calls that advance the iterator, and a put that comes between them. -/
def nextPutNext : List (Answer Reply Call) :=
  [⟨1, nextCall, entryReply ([97], [49])⟩, ⟨2, .put (.binary [98]) (.binary [49]), .term .ok⟩,
    ⟨3, nextCall, entryReply ([99], [50])⟩]

theorem session_shares_iterator_start : ∃ id,
    Reply.term (.tuple [.ok, .resource (.iterator 0)]) =
      .term (.tuple [.ok, .resource (.iterator id)]) ∧
    (dealt id nextPutNext).map Answer.reply =
      repliesOf (selected none none [([97], [49]), ([99], [50])] .toFirst)
        (dealt id nextPutNext).length := by
  have offered : AllOffered Memory.rustler twoKeysWorld
      [[.iterator (.tuple [])], nextPutNext.map Answer.call] := by
    refine ⟨calls_offered _ rfl, ?_, trivial⟩
    simp only [nextPutNext, List.map_cons, List.map_nil, List.forall_mem_cons]
    exact ⟨next_offered Nat.zero_lt_one, call_offered _ rfl, next_offered Nat.zero_lt_one, by simp⟩
  obtain ⟨_, leads⟩ := rounds_come offered 0 []
  have history : answers Memory.rustler twoKeysWorld 0
      [.iterator (.tuple []), nextCall, .put (.binary [98]) (.binary [49]), nextCall] =
      [] ++ ⟨0, .iterator (.tuple []), .term (.tuple [.ok, .resource (.iterator 0)])⟩ ::
        nextPutNext := rfl
  exact session_shares_iterator Memory.cursors leads history (.iterator rfl) rfl (by decide)

end ExRocket
