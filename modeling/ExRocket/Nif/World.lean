import ExRocket.Nif.Store

/-! The resources that native functions work on. A panic while the write guard of the
handle or the mutex of a snapshot or iterator is held poisons that lock; a panic under a
read guard does not. Taking a poisoned lock panics in turn. -/
namespace ExRocket

structure DbResource (R : RocksDb) where
  db : R.Store
  poisoned : Bool

structure SnapshotResource (R : RocksDb) where
  snap : R.Snap
  poisoned : Bool

structure IteratorResource (R : RocksDb) where
  iter : R.Iter
  poisoned : Bool

structure World (R : RocksDb) where
  handle : DbResource R
  snapshots : List (SnapshotResource R)
  iterators : List (IteratorResource R)

inductive Reply where
  | term (t : Term)
  | badarg
  | panicked

/-- What a native function hands back: a term, or a new resource to wrap in one. -/
inductive Made (R : RocksDb) where
  | term (t : Term)
  | snapshot (snap : R.Snap)
  | iterator (iter : R.Iter)

variable {R : RocksDb}

def Stop.reply : Stop → Reply
  | .badarg => .badarg
  | .panic => .panicked

namespace World

def opened (db : R.Store) : World R := ⟨⟨db, false⟩, [], []⟩

def withDb (w : World R) (db : R.Store) : World R :=
  { w with handle := { w.handle with db := db } }

def poison (w : World R) : World R :=
  { w with handle := { w.handle with poisoned := true } }

/-- A snapshot is returned with the handle it was taken from; an iterator is returned bare. -/
def release (w : World R) : Made R → Reply × World R
  | .term t => (.term t, w)
  | .snapshot snap =>
    (.term (.tuple [.ok, .tuple [.atom "snap", .resource .db,
      .resource (.snapshot w.snapshots.length)]]),
      { w with snapshots := w.snapshots ++ [⟨snap, false⟩] })
  | .iterator iter =>
    (.term (.tuple [.ok, .resource (.iterator w.iterators.length)]),
      { w with iterators := w.iterators ++ [⟨iter, false⟩] })

/-- Arguments are decoded before the function runs and before any lock is taken. -/
def decoded {α : Type} (w : World R) (argument : NifResult α) (body : α → Reply × World R) :
    Reply × World R :=
  match argument with
  | .ok value => body value
  | .error stop => (stop.reply, w)

/-- `let db_guard = resource.read();` -/
def read (w : World R) (body : R.Store → NifResult (Made R)) : Reply × World R :=
  if w.handle.poisoned then (.panicked, w)
  else
    match body w.handle.db with
    | .ok made => w.release made
    | .error stop => (stop.reply, w)

/-- `let db_guard = resource.write();` The body changes the store only when it returns. -/
def write (w : World R) (body : R.Store → NifResult (Term × R.Store)) : Reply × World R :=
  if w.handle.poisoned then (.panicked, w)
  else
    match body w.handle.db with
    | .ok (t, db) => (.term t, w.withDb db)
    | .error .badarg => (.badarg, w)
    | .error .panic => (.panicked, w.poison)

/-- A body that writes under the read guard: the same, but a panic poisons nothing. -/
def writeShared (w : World R) (body : R.Store → NifResult (Term × R.Store)) : Reply × World R :=
  if w.handle.poisoned then (.panicked, w)
  else
    match body w.handle.db with
    | .ok (t, db) => (.term t, w.withDb db)
    | .error stop => (stop.reply, w)

/-- `let snap_guard = resource.lock();` -/
def lockSnapshot (w : World R) (id : Nat) (body : R.Snap → NifResult (Made R)) :
    Reply × World R :=
  match w.snapshots[id]? with
  | none => (.badarg, w)
  | some resource =>
    if resource.poisoned then (.panicked, w)
    else
      match body resource.snap with
      | .ok made => w.release made
      | .error .badarg => (.badarg, w)
      | .error .panic =>
        (.panicked, { w with snapshots := w.snapshots.set id { resource with poisoned := true } })

/-- `let mut iter = resource.lock();` Advancing an iterator never fails in between. -/
def lockIterator (w : World R) (id : Nat) (body : R.Iter → Term × R.Iter) : Reply × World R :=
  match w.iterators[id]? with
  | none => (.badarg, w)
  | some resource =>
    if resource.poisoned then (.panicked, w)
    else
      (.term (body resource.iter).1,
        { w with iterators := w.iterators.set id { resource with iter := (body resource.iter).2 } })

@[simp] theorem withDb_handle (w : World R) (db : R.Store) :
    (w.withDb db).handle = { w.handle with db := db } := rfl

@[simp] theorem poison_poisoned (w : World R) : w.poison.handle.poisoned = true := rfl

@[simp] theorem release_handle (w : World R) (made : Made R) :
    (w.release made).2.handle = w.handle := by
  cases made <;> rfl

@[simp] theorem read_handle (w : World R) (body : R.Store → NifResult (Made R)) :
    (w.read body).2.handle = w.handle := by
  unfold read
  split
  · rfl
  · split
    · exact release_handle w _
    · rfl

@[simp] theorem lockSnapshot_handle (w : World R) (id : Nat)
    (body : R.Snap → NifResult (Made R)) : (w.lockSnapshot id body).2.handle = w.handle := by
  unfold lockSnapshot
  split
  · rfl
  · split
    · rfl
    · split
      · exact release_handle w _
      · rfl
      · rfl

@[simp] theorem lockIterator_handle (w : World R) (id : Nat) (body : R.Iter → Term × R.Iter) :
    (w.lockIterator id body).2.handle = w.handle := by
  unfold lockIterator
  split
  · rfl
  · split <;> rfl

@[simp] theorem decoded_handle {α : Type} (w : World R) (argument : NifResult α)
    {body : α → Reply × World R} (keeps : ∀ value, (body value).2.handle = w.handle) :
    (w.decoded argument body).2.handle = w.handle := by
  unfold decoded
  split
  · exact keeps _
  · rfl

theorem decoded_ok {α : Type} (w : World R) {argument : NifResult α} {value : α}
    (body : α → Reply × World R) (decodes : argument = .ok value) :
    w.decoded argument body = body value := by
  rw [decodes]
  rfl

theorem read_ok {w : World R} {body : R.Store → NifResult (Made R)} {made : Made R}
    (healthy : w.handle.poisoned = false) (returns : body w.handle.db = .ok made) :
    w.read body = w.release made := by
  simp only [read, healthy, returns]
  rfl

theorem read_term {w : World R} {body : R.Store → NifResult (Made R)} {t : Term}
    (healthy : w.handle.poisoned = false) (returns : body w.handle.db = .ok (.term t)) :
    w.read body = (.term t, w) :=
  read_ok healthy returns

theorem read_error {w : World R} {body : R.Store → NifResult (Made R)} {stop : Stop}
    (healthy : w.handle.poisoned = false) (fails : body w.handle.db = .error stop) :
    w.read body = (stop.reply, w) := by
  simp only [read, healthy, fails]
  rfl

theorem lockSnapshot_ok {w : World R} {id : Nat} {snap : R.Snap}
    {body : R.Snap → NifResult (Made R)} {made : Made R}
    (taken : w.snapshots[id]? = some ⟨snap, false⟩) (returns : body snap = .ok made) :
    w.lockSnapshot id body = w.release made := by
  simp only [lockSnapshot, taken, returns]
  rfl

theorem lockSnapshot_badarg {w : World R} {id : Nat} {snap : R.Snap}
    {body : R.Snap → NifResult (Made R)} (taken : w.snapshots[id]? = some ⟨snap, false⟩)
    (refuses : body snap = .error .badarg) : w.lockSnapshot id body = (.badarg, w) := by
  simp only [lockSnapshot, taken, refuses]
  rfl

theorem lockSnapshot_panic {w : World R} {id : Nat} {snap : R.Snap}
    {body : R.Snap → NifResult (Made R)} (taken : w.snapshots[id]? = some ⟨snap, false⟩)
    (panics : body snap = .error .panic) : w.lockSnapshot id body =
      (.panicked, { w with snapshots := w.snapshots.set id ⟨snap, true⟩ }) := by
  simp only [lockSnapshot, taken, panics]
  rfl

theorem write_ok {w : World R} {body : R.Store → NifResult (Term × R.Store)} {t : Term}
    {db : R.Store} (healthy : w.handle.poisoned = false)
    (returns : body w.handle.db = .ok (t, db)) : w.write body = (.term t, w.withDb db) := by
  simp only [write, healthy, returns]
  rfl

theorem write_cases (w : World R) (body : R.Store → NifResult (Term × R.Store)) :
    (w.handle.poisoned = true ∧ w.write body = (.panicked, w)) ∨
    (w.handle.poisoned = false ∧
      ((∃ t db, body w.handle.db = .ok (t, db) ∧ w.write body = (.term t, w.withDb db)) ∨
        (body w.handle.db = .error .badarg ∧ w.write body = (.badarg, w)) ∨
        (body w.handle.db = .error .panic ∧ w.write body = (.panicked, w.poison)))) := by
  cases healthy : w.handle.poisoned with
  | true => exact .inl ⟨rfl, by rw [write, if_pos healthy]⟩
  | false =>
    have open_ : ¬ w.handle.poisoned = true := by simp [healthy]
    refine .inr ⟨rfl, ?_⟩
    rw [write, if_neg open_]
    cases returns : body w.handle.db with
    | ok result => exact .inl ⟨result.1, result.2, rfl, rfl⟩
    | error stop =>
      cases stop with
      | badarg => exact .inr (.inl ⟨rfl, rfl⟩)
      | panic => exact .inr (.inr ⟨rfl, rfl⟩)

theorem writeShared_ok {w : World R} {body : R.Store → NifResult (Term × R.Store)} {t : Term}
    {db : R.Store} (healthy : w.handle.poisoned = false)
    (returns : body w.handle.db = .ok (t, db)) : w.writeShared body = (.term t, w.withDb db) := by
  simp only [writeShared, healthy, returns]
  rfl

theorem writeShared_cases (w : World R) (body : R.Store → NifResult (Term × R.Store)) :
    (w.handle.poisoned = true ∧ w.writeShared body = (.panicked, w)) ∨
    (w.handle.poisoned = false ∧
      ((∃ t db, body w.handle.db = .ok (t, db) ∧ w.writeShared body = (.term t, w.withDb db)) ∨
        ∃ stop, body w.handle.db = .error stop ∧ w.writeShared body = (stop.reply, w))) := by
  cases healthy : w.handle.poisoned with
  | true => exact .inl ⟨rfl, by rw [writeShared, if_pos healthy]⟩
  | false =>
    have open_ : ¬ w.handle.poisoned = true := by simp [healthy]
    refine .inr ⟨rfl, ?_⟩
    rw [writeShared, if_neg open_]
    cases returns : body w.handle.db with
    | ok result => exact .inl ⟨result.1, result.2, rfl, rfl⟩
    | error stop => exact .inr ⟨stop, rfl, rfl⟩

end World
end ExRocket
