import ExRocket.Nif.Lookup
import ExRocket.Nif.Poison

/-! When a run of reads leaves a snapshot usable. The functions on a snapshot take its mutex
before they decode their arguments, so a panic over an argument poisons it; four of the six
can panic there. -/
namespace ExRocket

open Rust

/-- The six reads that come in two forms, on the live store and on a snapshot. -/
inductive Read where
  | get (key : Term)
  | getCf (cfName key : Term)
  | multiGet (keys : Term)
  | multiGetCf (keys : Term)
  | iterator (mode : Term)
  | iteratorCf (cfName mode : Term)

/-- The snapshot as `snapshot` returns it. -/
def snapTerm (id : Nat) : Term :=
  .tuple [.atom "snap", .resource .db, .resource (.snapshot id)]

namespace Read

def live : Read → Call
  | .get key => .get key
  | .getCf cfName key => .getCf cfName key
  | .multiGet keys => .multiGet keys
  | .multiGetCf keys => .multiGetCf keys
  | .iterator mode => .iterator mode
  | .iteratorCf cfName mode => .iteratorCf cfName mode

def onSnapshot (id : Nat) : Read → Call
  | .get key => .snapshotGet (snapTerm id) key
  | .getCf cfName key => .snapshotGetCf (snapTerm id) cfName key
  | .multiGet keys => .snapshotMultiGet (snapTerm id) keys
  | .multiGetCf keys => .snapshotMultiGetCf (snapTerm id) keys
  | .iterator mode => .snapshotIterator (snapTerm id) mode
  | .iteratorCf cfName mode => .snapshotIteratorCf (snapTerm id) cfName mode

end Read

variable {rt : Rustler} {R : RocksDb}

def KeysPanic (rt : Rustler) (db : R.Store) (keys : Term) : Prop :=
  IsList keys ∧
    ((∃ before t after, elements keys = before ++ t :: after ∧
        (∀ s ∈ before, KeyAccepted db s) ∧ KeyPanics db t) ∨
      (∀ s ∈ elements keys, KeyAccepted db s) ∧ listEnd rt keys = .error .panic)

def TextsPanic (rt : Rustler) (keys : Term) : Prop :=
  IsList keys ∧ (∀ s ∈ elements keys, ∃ text, s.decodeString = .ok text) ∧
    listEnd rt keys = .error .panic

def FromAlone (mode : Term) : Prop := mode = .tuple [.atom "from"]

/-- A read that does not panic under the mutex. With the handle poisoned, the functions that
look up a family panic before they take it. -/
def Read.Harmless (rt : Rustler) (handle : DbResource R) : Read → Prop
  | .get _ => True
  | .getCf cfName _ => handle.poisoned = false →
    ∀ name, cfName.decodeString = .ok name → (R.cfHandle handle.db name).isSome
  | .multiGet keys => ¬ TextsPanic rt keys
  | .multiGetCf keys => handle.poisoned = false → ¬ KeysPanic rt handle.db keys
  | .iterator mode => ¬ FromAlone mode
  | .iteratorCf cfName mode => handle.poisoned = false →
    ∀ name, cfName.decodeString = .ok name → (R.cfHandle handle.db name).isSome →
      ¬ FromAlone mode

theorem atomToString_error {t : Term} {stop : Stop} (fails : t.atomToString = .error stop) :
    stop = .badarg := by
  cases t <;> cases fails <;> rfl

theorem iteratorMode_atom (name : String) (rest : List Term) :
    iteratorMode (.tuple (.atom name :: rest)) =
      match name with
      | "end" => pure .ending
      | "from" => do
        let first ← (← indexed rest 0).decodeBinary
        if rest.length + 1 = 3 then
          match ← (← indexed rest 1).atomToString with
          | "reverse" => return .reverse first
          | _ => return .forward first
        else return .forward first
      | _ => pure .start := rfl

/-- With a key the only panicking form is left behind: the rest is decoded or refused. -/
theorem iteratorMode_from_key (key : Term) (rest : List Term) :
    iteratorMode (.tuple (.atom "from" :: key :: rest)) ≠ .error .panic := by
  intro panics
  change (key.decodeBinary >>= fun first =>
    if rest.length + 2 = 3 then
      indexed rest 0 >>= fun t => t.atomToString >>= fun direction =>
        match direction with
        | "reverse" => return .reverse first
        | _ => return .forward first
    else (return .forward first : NifResult IteratorMode)) = .error .panic at panics
  rcases bind_error_iff.mp panics with refused | ⟨first, _, fails⟩
  · cases decodeBinary_error refused
  · split at fails
    · rename_i three
      cases rest with
      | nil => cases three
      | cons direction rest =>
        rw [indexed_zero] at fails
        rcases bind_error_iff.mp fails with impossible | ⟨_, same, fails⟩
        · cases impossible
        · cases same
          rcases bind_error_iff.mp fails with refused | ⟨_, _, impossible⟩
          · cases atomToString_error refused
          · split at impossible <;> cases impossible
    · cases fails

theorem iteratorMode_panic_iff {mode : Term} :
    iteratorMode mode = .error .panic ↔ FromAlone mode := by
  constructor
  · intro panics
    cases mode with
    | tuple terms =>
      cases terms with
      | nil => cases panics
      | cons head rest =>
        cases head with
        | atom name =>
          rw [iteratorMode_atom] at panics
          split at panics
          · cases panics
          · cases rest with
            | nil => rfl
            | cons key rest => exact absurd panics (iteratorMode_from_key key rest)
          · cases panics
        | _ => cases panics
    | _ => cases panics
  · rintro rfl
    rfl

theorem textsPanic_iff {keys : Term} :
    decodeKeys rt Term.decodeString keys = .error .panic ↔ TextsPanic rt keys := by
  rw [decodeKeys_panic_iff, TextsPanic]
  constructor
  · rintro ⟨list, ⟨_, t, _, _, _, fails⟩ | last⟩
    · cases decodeString_error fails
    · exact ⟨list, last⟩
  · exact fun ⟨list, last⟩ => ⟨list, .inr last⟩

theorem keysPanic_iff {db : R.Store} {keys : Term} :
    decodeKeys rt (familyKey db) keys = .error .panic ↔ KeysPanic rt db keys := by
  rw [decodeKeys_panic_iff, KeysPanic]
  simp only [familyKey_ok_iff, familyKey_panic_iff]

namespace World

variable {w : World R} {id : Nat}

/-! On the term of a snapshot the reads come to their bodies under the mutex. -/

theorem onSnapshot_get (w : World R) (id : Nat) (key : Term) :
    w.step rt ((Read.get key).onSnapshot id) = w.lockSnapshot id fun snap =>
      return .term (found (R.snapGet snap none (key.lazyBinary rt))) := rfl

theorem onSnapshot_multiGet (w : World R) (id : Nat) (keys : Term) :
    w.step rt ((Read.multiGet keys).onSnapshot id) = w.lockSnapshot id fun snap => do
      let keysList ← decodeKeys rt Term.decodeString keys
      return .term (foundAll (R.snapMultiGet snap (keysList.map fun k => (none, intoBytes k)))) :=
  rfl

theorem onSnapshot_iterator (w : World R) (id : Nat) (mode : Term) :
    w.step rt ((Read.iterator mode).onSnapshot id) = w.lockSnapshot id fun snap =>
      return .iterator (R.snapIterator snap none (← iteratorMode mode)) := rfl

theorem onSnapshot_multiGetCf (w : World R) (id : Nat) (keys : Term) :
    w.step rt ((Read.multiGetCf keys).onSnapshot id) =
      w.readSnapshot (snapTerm id) fun db snap => do
        let keysList ← decodeKeys rt (familyKey db) keys
        return .term (foundAll (R.snapMultiGet snap keysList)) := rfl

theorem onSnapshot_getCf (w : World R) (id : Nat) {cfName : Term} {name : Str} (key : Term)
    (named : cfName.decodeString = .ok name) :
    w.step rt ((Read.getCf cfName key).onSnapshot id) =
      w.readSnapshot (snapTerm id) fun db snap => do
        let cf ← unwrap (R.cfHandle db name)
        return .term (found (R.snapGet snap (some cf) (key.lazyBinary rt))) :=
  w.decoded_ok _ named

theorem onSnapshot_iteratorCf (w : World R) (id : Nat) {cfName : Term} {name : Str} (mode : Term)
    (named : cfName.decodeString = .ok name) :
    w.step rt ((Read.iteratorCf cfName mode).onSnapshot id) =
      w.readSnapshot (snapTerm id) fun db snap =>
        match R.cfHandle db name with
        | none => return .term unknownCf
        | some cf => return .iterator (R.snapIterator snap (some cf) (← iteratorMode mode)) :=
  w.decoded_ok _ named

theorem readSnapshot_eq (w : World R) (id : Nat) (body : R.Store → R.Snap → NifResult (Made R)) :
    w.readSnapshot (snapTerm id) body =
      if w.handle.poisoned then (.panicked, w) else w.lockSnapshot id (body w.handle.db) := rfl

/-- What a read of a snapshot does: it stops before the mutex, or its body runs under the
mutex and panics just when the read is harmful. -/
def SnapshotGuarded (rt : Rustler) (w : World R) (id : Nat) (read : Read) : Prop :=
  (read.Harmless rt w.handle ∧
    ∃ stop : Stop, w.step rt (read.onSnapshot id) = (stop.reply, w)) ∨
  ∃ body, w.step rt (read.onSnapshot id) = w.lockSnapshot id body ∧
    ∀ snap, body snap = .error .panic ↔ ¬ read.Harmless rt w.handle

/-- The functions that also take the handle: a poisoned handle stops them. -/
theorem snapshotGuarded_handle {read : Read} {body : R.Store → R.Snap → NifResult (Made R)}
    (step : w.step rt (read.onSnapshot id) = w.readSnapshot (snapTerm id) body)
    (stopped : w.handle.poisoned = true → read.Harmless rt w.handle)
    (panics : w.handle.poisoned = false →
      ∀ snap, body w.handle.db snap = .error .panic ↔ ¬ read.Harmless rt w.handle) :
    w.SnapshotGuarded rt id read := by
  rw [readSnapshot_eq] at step
  cases poisoned : w.handle.poisoned with
  | true =>
    rw [poisoned, if_pos rfl] at step
    exact .inl ⟨stopped poisoned, .panic, step⟩
  | false =>
    rw [poisoned] at step
    exact .inr ⟨body w.handle.db, step, panics poisoned⟩

theorem step_snapshotGuarded (rt : Rustler) (w : World R) (id : Nat) (read : Read) :
    w.SnapshotGuarded rt id read := by
  cases read with
  | get key =>
    refine .inr ⟨_, onSnapshot_get w id key, fun snap => ?_⟩
    simp [Read.Harmless, pure, Except.pure]
  | multiGet keys =>
    refine .inr ⟨_, onSnapshot_multiGet w id keys, fun snap => ?_⟩
    rw [Read.Harmless, not_not, ← textsPanic_iff, bind_error_iff]
    simp [pure, Except.pure]
  | iterator mode =>
    refine .inr ⟨_, onSnapshot_iterator w id mode, fun snap => ?_⟩
    rw [Read.Harmless, not_not, ← iteratorMode_panic_iff, bind_error_iff]
    simp [pure, Except.pure]
  | multiGetCf keys =>
    apply snapshotGuarded_handle (onSnapshot_multiGetCf w id keys)
    · intro poisoned healthy
      simp [poisoned] at healthy
    · intro healthy snap
      simp only [Read.Harmless, healthy, true_implies, not_not]
      rw [← keysPanic_iff, bind_error_iff]
      simp [pure, Except.pure]
  | getCf cfName key =>
    cases named : cfName.decodeString with
    | error stop =>
      refine .inl ⟨by simp [Read.Harmless, named], stop, ?_⟩
      simp [step, Read.onSnapshot, snapshotGetCf, decoded, named]
    | ok name =>
      apply snapshotGuarded_handle (onSnapshot_getCf w id key named)
      · intro poisoned healthy
        simp [poisoned] at healthy
      · intro healthy snap
        rw [bind_error_iff, unwrap_error_iff]
        simp [Read.Harmless, healthy, named, pure, Except.pure]
  | iteratorCf cfName mode =>
    cases named : cfName.decodeString with
    | error stop =>
      refine .inl ⟨by simp [Read.Harmless, named], stop, ?_⟩
      simp [step, Read.onSnapshot, snapshotIteratorCf, decoded, named]
    | ok name =>
      apply snapshotGuarded_handle (onSnapshot_iteratorCf w id mode named)
      · intro poisoned healthy
        simp [poisoned] at healthy
      · intro healthy snap
        simp only [Read.Harmless, healthy, named, true_implies, Except.ok.injEq, forall_eq']
        cases known : R.cfHandle w.handle.db name with
        | none => simp [pure, Except.pure]
        | some cf =>
          rw [← iteratorMode_panic_iff]
          simp [bind_error_iff, pure, Except.pure]

/-- The snapshot is there and its mutex is not poisoned. -/
def Usable (w : World R) (id : Nat) : Prop := ∃ snap, w.snapshots[id]? = some ⟨snap, false⟩

theorem release_failed {made : Made R} (failed : (w.release made).1.failed = true) :
    (w.release made).2 = w := by
  cases made with
  | term t => rfl
  | snapshot snap => cases failed
  | iterator iter => cases failed

theorem release_usable (made : Made R) (usable : w.Usable id) : (w.release made).2.Usable id := by
  obtain ⟨snap, here⟩ := usable
  cases made with
  | term | iterator => exact ⟨snap, here⟩
  | snapshot other =>
    have inside := (List.getElem?_eq_some_iff.mp here).1
    refine ⟨snap, ?_⟩
    simp [release, List.getElem?_append_left inside, here]

def Broken (w : World R) (id : Nat) : Prop := ∃ snap, w.snapshots[id]? = some ⟨snap, true⟩

theorem Broken.not_usable (broken : w.Broken id) : ¬ w.Usable id := by
  obtain ⟨snap, here⟩ := broken
  rintro ⟨snap', there⟩
  rw [here] at there
  cases there

/-- On a usable snapshot a read that is harmless keeps it usable, and changes nothing if it
fails; a read that is harmful poisons the mutex. -/
theorem step_usable (rt : Rustler) (read : Read) (usable : w.Usable id) :
    (read.Harmless rt w.handle → (w.step rt (read.onSnapshot id)).2.Usable id ∧
      ((w.step rt (read.onSnapshot id)).1.failed = true →
        (w.step rt (read.onSnapshot id)).2 = w)) ∧
    (¬ read.Harmless rt w.handle → (w.step rt (read.onSnapshot id)).2.Broken id) := by
  rcases w.step_snapshotGuarded rt id read with ⟨harmless, stop, step⟩ | ⟨body, step, panics⟩
  · rw [step]
    exact ⟨fun _ => ⟨usable, fun _ => rfl⟩, fun harmful => absurd harmless harmful⟩
  · have kept := usable
    obtain ⟨snap, here⟩ := usable
    have panicked := panics snap
    cases returns : body snap with
    | ok made =>
      have harmless : read.Harmless rt w.handle := by
        simpa [returns] using panicked
      rw [step, lockSnapshot_ok here returns]
      exact ⟨fun _ => ⟨release_usable made kept, release_failed⟩,
        fun harmful => absurd harmless harmful⟩
    | error stop =>
      cases stop with
      | badarg =>
        have harmless : read.Harmless rt w.handle := by
          simpa [returns] using panicked
        rw [step, lockSnapshot_badarg here returns]
        exact ⟨fun _ => ⟨kept, fun _ => rfl⟩, fun harmful => absurd harmless harmful⟩
      | panic =>
        have harmful := panicked.mp returns
        have inside := (List.getElem?_eq_some_iff.mp here).1
        rw [step, lockSnapshot_panic here returns]
        refine ⟨fun harmless => absurd harmless harmful, fun _ => ⟨snap, ?_⟩⟩
        exact List.getElem?_set_self inside

theorem step_broken (rt : Rustler) (read : Read) (broken : w.Broken id) :
    (w.step rt (read.onSnapshot id)).2 = w := by
  rcases w.step_snapshotGuarded rt id read with ⟨_, stop, step⟩ | ⟨body, step, _⟩
  · simp only [step]
  · obtain ⟨snap, here⟩ := broken
    simp only [step, lockSnapshot]
    simp [here]

theorem step_onSnapshot_handle (rt : Rustler) (w : World R) (id : Nat) (read : Read) :
    (w.step rt (read.onSnapshot id)).2.handle = w.handle := by
  apply step_reads
  cases read <;> rfl

variable (rt : Rustler)

def snapshotCalls (id : Nat) (reads : List Read) : List Call := reads.map (·.onSnapshot id)

/-- The mutex is not poisoned, and every read of the snapshot does what it does without the
failed reads. -/
def SnapshotUnaffected (w : World R) (id : Nat) (reads : List Read) : Prop :=
  (w.run rt (snapshotCalls id reads)).2.Usable id ∧
    ∀ read : Read, ((w.run rt (snapshotCalls id reads)).2.step rt (read.onSnapshot id)).1 =
      ((w.run rt (w.succeeding rt (snapshotCalls id reads))).2.step rt (read.onSnapshot id)).1

variable {rt}

theorem run_snapshotCalls_cons (read : Read) (reads : List Read) :
    (w.run rt (snapshotCalls id (read :: reads))).2 =
      ((w.step rt (read.onSnapshot id)).2.run rt (snapshotCalls id reads)).2 := rfl

theorem run_broken (reads : List Read) (broken : w.Broken id) :
    (w.run rt (snapshotCalls id reads)).2 = w := by
  induction reads with
  | nil => rfl
  | cons read reads ih =>
    have here := step_broken rt read broken
    rw [run_snapshotCalls_cons, here]
    exact ih

theorem run_usable_iff (reads : List Read) (usable : w.Usable id) :
    (w.run rt (snapshotCalls id reads)).2.Usable id ↔
      ∀ read ∈ reads, read.Harmless rt w.handle := by
  induction reads generalizing w with
  | nil => simpa [snapshotCalls] using usable
  | cons read reads ih =>
    obtain ⟨keeps, breaks⟩ := step_usable rt read usable
    have same := step_onSnapshot_handle rt w id read
    rw [List.forall_mem_cons, run_snapshotCalls_cons]
    by_cases harmless : read.Harmless rt w.handle
    · have rest := ih (keeps harmless).1
      rw [same] at rest
      simpa [harmless] using rest
    · have broken := breaks harmless
      rw [run_broken reads broken]
      exact iff_of_false broken.not_usable fun all => harmless all.1

theorem run_reads_succeeding (reads : List Read) (usable : w.Usable id)
    (harmless : ∀ read ∈ reads, read.Harmless rt w.handle) :
    (w.run rt (snapshotCalls id reads)).2 =
      (w.run rt (w.succeeding rt (snapshotCalls id reads))).2 := by
  induction reads generalizing w with
  | nil => rfl
  | cons read reads ih =>
    obtain ⟨now, later⟩ := List.forall_mem_cons.mp harmless
    obtain ⟨usable', settles⟩ := (step_usable rt read usable).1 now
    have same := step_onSnapshot_handle rt w id read
    rw [← same] at later
    have rest := ih usable' later
    have skips : w.succeeding rt (snapshotCalls id (read :: reads)) =
        if (w.step rt (read.onSnapshot id)).1.failed then
          (w.step rt (read.onSnapshot id)).2.succeeding rt (snapshotCalls id reads)
        else read.onSnapshot id ::
          (w.step rt (read.onSnapshot id)).2.succeeding rt (snapshotCalls id reads) := rfl
    rw [run_snapshotCalls_cons, rest, skips]
    split
    · rename_i failed
      rw [settles failed]
    · rfl

theorem snapshot_unaffected_iff (usable : w.Usable id) (reads : List Read) :
    w.SnapshotUnaffected rt id reads ↔ ∀ read ∈ reads, read.Harmless rt w.handle := by
  constructor
  · rintro ⟨stays, _⟩
    exact (run_usable_iff reads usable).mp stays
  · intro harmless
    have same := run_reads_succeeding reads usable harmless
    exact ⟨(run_usable_iff reads usable).mpr harmless, fun read => by rw [same]⟩

/- A key that is no binary is refused under the mutex, which leaves it alone. -/
theorem snapshot_unaffected_iff_refused_key :
    (Memory.world.step Memory.rustler .snapshot).2.SnapshotUnaffected Memory.rustler 0
        [.multiGet (.ofList [.integer 5])] ↔
      ∀ read ∈ [Read.multiGet (.ofList [.integer 5])],
        read.Harmless Memory.rustler (Memory.world.step Memory.rustler .snapshot).2.handle :=
  snapshot_unaffected_iff ⟨Memory.empty, rfl⟩ _

/- A family that does not exist panics under the mutex, and so does every read after it. -/
theorem unknown_family_breaks_snapshot :
    ((Memory.world.step Memory.rustler .snapshot).2.run Memory.rustler
      [.snapshotGetCf (snapTerm 0) (.binary [120]) (.binary [107]),
        .snapshotGet (snapTerm 0) (.binary [107])]).1 = [.panicked, .panicked] ∧
    ¬ ∀ (w : World Memory.rocksDb) (id : Nat) (reads : List Read), w.Usable id →
      w.SnapshotUnaffected Memory.rustler id reads := by
  refine ⟨rfl, ?_⟩
  intro unaffected
  have stays := unaffected (Memory.world.step Memory.rustler .snapshot).2 0
    [.getCf (.binary [120]) (.binary [107])] ⟨Memory.empty, rfl⟩
  obtain ⟨snap, here⟩ := stays.1
  cases here

end World
end ExRocket
