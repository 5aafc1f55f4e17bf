import ExRocket.Nif.Guards

/-! Calls on one database handle at the same time. Each takes its guards as the lock allows,
does under them what it does alone, and lets go of them. Readers are kept apart from every
call that writes, but for the deletion in a family, which writes as a reader. -/
namespace ExRocket

open Locks

structure Active (R : RocksDb) where
  call : Call
  locks : Caller Resource
  /-- The store when the call took its guard of the handle. -/
  entered : R.Store
  reply : Option Reply

structure Concurrent (R : RocksDb) where
  world : World R
  active : List (Active R)

variable {R : RocksDb}

namespace Active

def arriving (call : Call) (store : R.Store) : Active R :=
  ⟨call, .arriving call.guards, store, none⟩

def guarded (a : Active R) : Bool := a.locks.held.any fun g => decide (g.lock = .db)

/-- Until it has its guard of the handle, the call has entered no store. -/
def moved (a : Active R) (locks : Caller Resource) (store : R.Store) : Active R :=
  { a with locks := locks, entered := if a.guarded then a.entered else store }

end Active

namespace Concurrent

def opened (w : World R) : Concurrent R := ⟨w, []⟩

def store (s : Concurrent R) : R.Store := s.world.handle.db

def locks (s : Concurrent R) : List (Caller Resource) := s.active.map Active.locks

/-- A call other than this one holds a guard of the handle. -/
def Overlapped (s : Concurrent R) (i : Nat) : Prop :=
  ∃ j b, j ≠ i ∧ s.active[j]? = some b ∧ ∃ g ∈ b.locks.held, g.lock = .db

/-- Every call under a shared guard of the handle finds the store it entered. -/
def Steady (s : Concurrent R) : Prop :=
  ∀ a ∈ s.active, readGuard ∈ a.locks.held → a.entered = s.store

end Concurrent

inductive Event where
  | arrive (call : Call)
  | move (i : Nat)
  | perform (i : Nat)
  | leave (i : Nat)

inductive Happens (rt : Rustler) (policy : Policy Resource) :
    Concurrent R → Event → Concurrent R → Prop where
  | arrive (s : Concurrent R) (call : Call) :
    Happens rt policy s (.arrive call) ⟨s.world, s.active ++ [.arriving call s.store]⟩
  | move {s : Concurrent R} {i : Nat} {a : Active R} {locks : Caller Resource}
    (present : s.active[i]? = some a) (moves : Moves policy s.locks a.locks locks) :
    Happens rt policy s (.move i) ⟨s.world, s.active.set i (a.moved locks s.store)⟩
  | perform {s : Concurrent R} {i : Nat} {a : Active R} (present : s.active[i]? = some a)
    (holds : a.locks.held = a.call.guards.reverse) (unanswered : a.reply = none) :
    Happens rt policy s (.perform i) ⟨(s.world.step rt a.call).2,
      s.active.set i { a with reply := some (s.world.step rt a.call).1 }⟩
  | leave {s : Concurrent R} {i : Nat} {a : Active R} (present : s.active[i]? = some a)
    (finished : a.locks.Finished) : Happens rt policy s (.leave i) ⟨s.world, s.active.eraseIdx i⟩

structure Moment (R : RocksDb) where
  before : Concurrent R
  event : Event
  after : Concurrent R

/-- The moments of a run, latest first, and where it ends. -/
inductive Run (rt : Rustler) (policy : Nat → Policy Resource) (w : World R) :
    List (Moment R) → Concurrent R → Prop where
  | start : Run rt policy w [] (.opened w)
  | step {moments s event s'} (before : Run rt policy w moments s)
    (now : Happens rt (policy moments.length) s event s') :
    Run rt policy w (⟨s, event, s'⟩ :: moments) s'

/-- The call is a deletion in a family that changes the store it finds. -/
def Call.Deletes (rt : Rustler) (handle : DbResource R) : Call → Prop
  | .deleteCf cfName key => handle.poisoned = false ∧ ∃ name cf,
      cfName.decodeString = .ok name ∧ R.cfHandle handle.db name = some cf ∧
      (done handle.db (.issue (.delete (some cf) (key.lazyBinary rt)))).2 ≠ handle.db
  | _ => False

namespace Moment

/-- The store changes only while no other call holds a guard of the handle. -/
def Isolated (m : Moment R) : Prop :=
  m.after.store ≠ m.before.store → ∃ i, m.event = .perform i ∧ ¬ m.before.Overlapped i

variable (rt : Rustler)

/-- A deletion in a family that changes the store is alone on the handle. -/
def Careful (m : Moment R) : Prop :=
  ∀ i a, m.event = .perform i → m.before.active[i]? = some a →
    a.call.Deletes rt m.before.world.handle → ¬ m.before.Overlapped i

/-- No deletion in a family changes the store. -/
def Still (m : Moment R) : Prop :=
  ∀ i a, m.event = .perform i → m.before.active[i]? = some a →
    ¬ a.call.Deletes rt m.before.world.handle

end Moment

variable {rt : Rustler}

theorem deleteCf_changes {w : World R} {cfName key : Term} :
    (w.deleteCf rt cfName key).2.handle.db ≠ w.handle.db ↔
      (Call.deleteCf cfName key).Deletes rt w.handle := by
  rw [World.deleteCf, Call.Deletes]
  cases decodes : cfName.decodeString with
  | error stop => simp [World.decoded]
  | ok name =>
    simp only [World.decoded, World.writeShared]
    cases poisoned : w.handle.poisoned with
    | true => simp
    | false =>
      cases family : R.cfHandle w.handle.db name with
      | none => simp [family, unwrap, throw, throwThe, MonadExceptOf.throw]
      | some cf => simp [family, unwrap, pure, Except.pure, bind, Except.bind]

/-- Only under the write guard, or by the deletion in a family, does a call change the store. -/
theorem step_changes {w : World R} {call : Call}
    (changes : (w.step rt call).2.handle.db ≠ w.handle.db) :
    writeGuard ∈ call.guards ∨ call.Deletes rt w.handle := by
  by_cases deletion : ∃ cfName key, call = .deleteCf cfName key
  · obtain ⟨cfName, key, rfl⟩ := deletion
    exact .inr (deleteCf_changes.mp changes)
  · left
    by_contra unguarded
    have shared : ∀ g ∈ call.guards, g.lock = .db → g.access = .shared := by
      rintro ⟨lock, access⟩ taken rfl
      cases access with
      | shared => rfl
      | exclusive => exact absurd taken unguarded
    have framed : Framed (R := R) call.guards fun w => w.step rt call :=
      step_framed call fun cfName key same => deletion ⟨cfName, key, same⟩
    have same : (w.step rt call).2.handle = w.handle :=
      framed.writes w .db List.mem_cons_self shared
    rw [same] at changes
    exact changes rfl

theorem deletes_changes {w : World R} {call : Call} (deletes : call.Deletes rt w.handle) :
    (w.step rt call).2.handle.db ≠ w.handle.db := by
  cases call with
  | deleteCf => exact deleteCf_changes.mpr deletes
  | _ => exact deletes.elim

theorem deletes_guards {w : World R} {call : Call} (deletes : call.Deletes rt w.handle) :
    call.guards = [readGuard] := by
  cases call with
  | deleteCf =>
    obtain ⟨_, name, _, decodes, _⟩ := deletes
    simp only [Call.guards, after, decodes]
  | _ => exact deletes.elim

section Exclusion

variable {policy : Policy Resource} {s s' : Concurrent R} {event : Event}

theorem locks_at {i : Nat} {a : Active R} (present : s.active[i]? = some a) :
    s.locks[i]? = some a.locks := by
  simp [Concurrent.locks, present]

/-- What happens to the guards is what the locks allow. -/
theorem happens_locks (happens : Happens rt policy s event s') :
    s'.locks = s.locks ∨
      Step policy (fun guards => ∃ call : Call, call.guards = guards) s.locks s'.locks := by
  cases happens with
  | arrive call =>
    right
    simp only [Concurrent.locks, List.map_append, List.map_cons, List.map_nil]
    exact .arrive ⟨call, rfl⟩
  | move present moves =>
    right
    simp only [Concurrent.locks, List.map_set]
    exact .move (locks_at present) moves
  | @perform i a present =>
    left
    obtain ⟨inside, here⟩ := List.getElem?_eq_some_iff.mp (locks_at present)
    have same : s.locks.set i a.locks = s.locks := by rw [← here, List.set_getElem_self]
    simp only [Concurrent.locks, List.map_set]
    exact same
  | leave present finished =>
    right
    simp only [Concurrent.locks, ← List.eraseIdx_map]
    exact .leave (locks_at present) finished

theorem happens_exclusive (happens : Happens rt policy s event s')
    (exclusive : Exclusive s.locks) : Exclusive s'.locks := by
  rcases happens_locks happens with same | step
  · rw [same]
    exact exclusive
  · exact step_exclusive step exclusive

theorem run_exclusive {policy : Nat → Policy Resource} {w : World R} {moments : List (Moment R)}
    (run : Run rt policy w moments s) : Exclusive s.locks := by
  induction run with
  | start => simp [Exclusive, Concurrent.locks, Concurrent.opened]
  | step _ now ih => exact happens_exclusive now ih

theorem writer_alone {i j : Nat} {a b : Active R} (exclusive : Exclusive s.locks)
    (present : s.active[i]? = some a) (writes : writeGuard ∈ a.locks.held) (different : j ≠ i)
    (present' : s.active[j]? = some b) {g : Guard Resource} (holds : g ∈ b.locks.held) :
    g.lock ≠ .db := by
  intro same
  have apart : a.locks.Apart b.locks :=
    exclusive different.symm (locks_at present) (locks_at present')
  cases (apart _ writes g holds same.symm).1

end Exclusion

section Moments

variable {policy : Policy Resource} {s s' : Concurrent R} {event : Event}

theorem performs_changes {i : Nat} {a : Active R} (present : s.active[i]? = some a)
    (happens : Happens rt policy s (.perform i) s') :
    s'.world = (s.world.step rt a.call).2 ∧ a.locks.held = a.call.guards.reverse := by
  cases happens with
  | perform present' holds =>
    cases Option.some.inj (present.symm.trans present')
    exact ⟨rfl, holds⟩

theorem store_changes (happens : Happens rt policy s event s') (changes : s'.store ≠ s.store) :
    ∃ i a, event = .perform i ∧ s.active[i]? = some a := by
  cases happens with
  | perform present => exact ⟨_, _, rfl, present⟩
  | _ => exact absurd rfl changes

theorem isolated_iff_careful (happens : Happens rt policy s event s')
    (exclusive : Exclusive s.locks) :
    (Moment.mk s event s').Isolated ↔ (Moment.mk s event s').Careful rt := by
  constructor
  · rintro isolated i a rfl present deletes
    obtain ⟨after, _⟩ := performs_changes present happens
    have changes : s'.store ≠ s.store := by
      rw [Concurrent.store, after]
      exact deletes_changes deletes
    obtain ⟨j, same, alone⟩ := isolated changes
    cases same
    exact alone
  · intro careful changes
    obtain ⟨i, a, rfl, present⟩ := store_changes happens changes
    obtain ⟨after, holds⟩ := performs_changes present happens
    refine ⟨i, rfl, ?_⟩
    simp only [Concurrent.store, after] at changes
    rcases step_changes changes with writes | deletes
    · rintro ⟨j, b, different, present', g, holds', same⟩
      have held : writeGuard ∈ a.locks.held := by simp [holds, writes]
      exact writer_alone exclusive present held different present' holds' same
    · exact careful i a rfl present deletes

/-- A call that takes or keeps its shared guard has entered the store that is there. -/
theorem moved_entered {a : Active R} {locks : Caller Resource}
    (moves : Moves policy s.locks a.locks locks) (member : a ∈ s.active)
    (steady : readGuard ∈ a.locks.held → a.entered = s.store)
    (holds : readGuard ∈ locks.held) : (a.moved locks s.store).entered = s.store := by
  cases guarded : a.guarded with
  | false => simp [Active.moved, guarded]
  | true =>
    simp only [Active.moved, guarded, if_true]
    apply steady
    rcases moves_held moves holds with before | beside
    · exact before
    · simp only [Active.guarded, List.any_eq_true, decide_eq_true_eq] at guarded
      obtain ⟨⟨lock, access⟩, held, rfl⟩ := guarded
      have among := mem_heldBy.mpr ⟨_, List.mem_map_of_mem (f := Active.locks) member, held⟩
      obtain ⟨_, shared⟩ := beside _ among rfl
      cases shared
      exact held

/-- While a call reads, what is performed leaves the store, but for a deletion in a family. -/
theorem reader_keeps {i j : Nat} {a b : Active R} (exclusive : Exclusive s.locks)
    (present : s.active[i]? = some a) (guarded : a.locks.held = a.call.guards.reverse)
    (still : ¬ a.call.Deletes rt s.world.handle) (present' : s.active[j]? = some b)
    (reads : readGuard ∈ b.locks.held) : (s.world.step rt a.call).2.handle.db = s.store := by
  by_contra changes
  rcases step_changes changes with writes | deletes
  · have held : writeGuard ∈ a.locks.held := by simp [guarded, writes]
    by_cases here : j = i
    · subst here
      cases Option.some.inj (present.symm.trans present')
      have taken : readGuard ∈ a.call.guards := by simpa [guarded] using reads
      cases guards_once taken writes rfl
    · exact writer_alone exclusive present held here present' reads rfl
  · exact still deletes

theorem happens_steady (happens : Happens rt policy s event s') (exclusive : Exclusive s.locks)
    (steady : s.Steady) (still : (Moment.mk s event s').Still rt) : s'.Steady := by
  cases happens with
  | arrive call =>
    intro a member holds
    rcases List.mem_append.mp member with before | new
    · exact steady a before holds
    · rw [List.mem_singleton.mp new]
      rfl
  | move present moves =>
    intro b member holds
    rcases List.mem_or_eq_of_mem_set member with before | rfl
    · exact steady b before holds
    · have before := List.mem_of_getElem? present
      exact moved_entered moves before (steady _ before) holds
  | @perform i a present guarded =>
    intro b member holds
    have found : ∃ (j : Nat) (c : Active R), s.active[j]? = some c ∧ readGuard ∈ c.locks.held ∧
        c.entered = b.entered := by
      rcases List.mem_or_eq_of_mem_set member with before | rfl
      · obtain ⟨j, there⟩ := List.getElem?_of_mem before
        exact ⟨j, b, there, holds, rfl⟩
      · exact ⟨i, a, present, holds, rfl⟩
    obtain ⟨j, c, there, reads, same⟩ := found
    rw [← same, steady c (List.mem_of_getElem? there) reads]
    exact (reader_keeps exclusive present guarded (still i a rfl present) there reads).symm
  | leave =>
    intro a member
    exact steady a (List.mem_of_mem_eraseIdx member)

/-- In a moment that leaves every reader its store, a deletion in a family leaves it too: it
is a reader itself. -/
theorem still_iff (happens : Happens rt policy s event s') (exclusive : Exclusive s.locks)
    (steady : s.Steady) :
    ((Moment.mk s event s').Isolated ∧ s'.Steady) ↔ (Moment.mk s event s').Still rt := by
  constructor
  · rintro ⟨_, steady'⟩ i a rfl present deletes
    cases happens with
    | perform present' guarded =>
      cases Option.some.inj (present.symm.trans present')
      have holds : readGuard ∈ a.locks.held := by simp [guarded, deletes_guards deletes]
      obtain ⟨inside, _⟩ := List.getElem?_eq_some_iff.mp present
      have entered := steady a (List.mem_of_getElem? present) holds
      have left := steady' _ (List.mem_set inside _) holds
      exact deletes_changes deletes (left.symm.trans entered)
  · intro still
    constructor
    · rw [isolated_iff_careful happens exclusive]
      exact fun i a performs present deletes => absurd deletes (still i a performs present)
    · exact happens_steady happens exclusive steady still

end Moments

section Runs

variable {policy : Nat → Policy Resource} {w : World R} {moments : List (Moment R)}
  {s : Concurrent R}

theorem run_steady (run : Run rt policy w moments s)
    (steady : ∀ m ∈ moments, m.after.Steady) : s.Steady := by
  cases run with
  | start => simp [Concurrent.Steady, Concurrent.opened]
  | step => exact steady _ List.mem_cons_self

theorem run_isolated_iff (run : Run rt policy w moments s) :
    (∀ m ∈ moments, m.Isolated) ↔ ∀ m ∈ moments, m.Careful rt := by
  induction run with
  | start => simp
  | step before now ih =>
    rw [List.forall_mem_cons, List.forall_mem_cons, ih,
      isolated_iff_careful now (run_exclusive before)]

theorem run_still_iff (run : Run rt policy w moments s) :
    (∀ m ∈ moments, m.Isolated ∧ m.after.Steady) ↔ ∀ m ∈ moments, m.Still rt := by
  induction run with
  | start => simp
  | step before now ih =>
    rw [List.forall_mem_cons, List.forall_mem_cons]
    have next : ∀ steady, _ := still_iff now (run_exclusive before)
    constructor
    · rintro ⟨last, rest⟩
      have steady := run_steady before fun m member => (rest m member).2
      exact ⟨(next steady).mp last, ih.mp rest⟩
    · rintro ⟨last, rest⟩
      have calm := ih.mpr rest
      have steady := run_steady before fun m member => (calm m member).2
      exact ⟨(next steady).mpr last, calm⟩

/-- Whatever the calls and whatever the lock lets in first: the store changes only while no
other call holds a guard of the handle, exactly if each deletion in a family that changes
it is alone; and if none changes it, exactly then every reader also finds one store. -/
theorem readers_isolated_iff (run : Run rt policy w moments s) :
    ((∀ m ∈ moments, m.Isolated) ↔ ∀ m ∈ moments, m.Careful rt) ∧
    ((∀ m ∈ moments, m.Isolated ∧ m.after.Steady) ↔ ∀ m ∈ moments, m.Still rt) :=
  ⟨run_isolated_iff run, run_still_iff run⟩

end Runs

def readX : Call := .getCf (.binary [120]) (.binary [107])

def deleteX : Call := .deleteCf (.binary [120]) (.binary [107])

def holding (call : Call) : Active Memory.rocksDb :=
  ⟨call, ⟨[readGuard], [], false⟩, Memory.twoFamilies.handle.db, none⟩

/-- The reader takes its guard. -/
theorem readX_holds : ∃ moments, moments.length = 3 ∧
    Run Memory.rustler (fun _ => Policy.plain) Memory.twoFamilies moments
      ⟨Memory.twoFamilies, [holding readX]⟩ ∧
    ∀ m ∈ moments, m.Still Memory.rustler := by
  have nobody : Run Memory.rustler (fun _ => Policy.plain) Memory.twoFamilies [] _ := .start
  have arrives := nobody.step (.arrive _ readX)
  have asks := arrives.step (.move (i := 0) rfl (.ask rfl (List.cons_ne_nil _ _)))
  have takes := asks.step
    (.move (i := 0) rfl (.take rfl fun h held => absurd held List.not_mem_nil))
  refine ⟨_, rfl, takes, ?_⟩
  simp [Moment.Still]

theorem readers_isolated_iff_reader : ∃ moments s,
    Run Memory.rustler (fun _ => Policy.plain) Memory.twoFamilies moments s ∧ moments.length = 4 ∧
    ∀ m ∈ moments, m.Isolated ∧ m.after.Steady := by
  obtain ⟨moments, length, run, still⟩ := readX_holds
  have answers := run.step (.perform (i := 0) rfl rfl rfl)
  refine ⟨_, _, answers, by simp [length], (readers_isolated_iff answers).2.mpr ?_⟩
  rw [List.forall_mem_cons]
  refine ⟨?_, still⟩
  rintro i a performs present
  cases performs
  cases present
  exact id

/-- The deletion in a family takes a shared guard as well, and the reader's key is gone. -/
theorem deleteCf_beside_reader :
    ¬ ∀ (policy : Nat → Policy Resource) (w : World Memory.rocksDb)
      (moments : List (Moment Memory.rocksDb)) (s : Concurrent Memory.rocksDb),
      Run Memory.rustler policy w moments s → ∀ m ∈ moments, m.Isolated ∧ m.after.Steady := by
  intro claimed
  obtain ⟨moments, _, run, _⟩ := readX_holds
  have arrives := run.step (.arrive _ deleteX)
  have asks := arrives.step (.move (i := 1) rfl (.ask rfl (List.cons_ne_nil _ _)))
  have beside : ∀ h ∈ [readGuard], readGuard.Beside h := by
    intro h held
    rw [List.mem_singleton.mp held]
    exact fun _ => ⟨rfl, rfl⟩
  have takes := asks.step (.move (i := 1) rfl (.take rfl beside))
  have deletes := takes.step (.perform (i := 1) rfl rfl rfl)
  obtain ⟨isolated, _⟩ := claimed _ _ _ _ deletes _ List.mem_cons_self
  have changes : (3 : Nat) ≠ 2 := by decide
  obtain ⟨i, same, alone⟩ := isolated fun kept => changes (congrArg Memory.Store.sequence kept)
  cases same
  exact alone ⟨0, holding readX, Nat.zero_ne_one, rfl, readGuard, List.mem_cons_self, rfl⟩

end ExRocket
