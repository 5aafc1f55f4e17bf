import ExRocket.Nif.BatchPanics
import ExRocket.Nif.Changes

/-! When a run of calls leaves the handle usable. Only a panic under the write guard poisons
it, and only four functions can panic there: the batch, the write to a named family, the
creation of a family and the checkpoint. A call that fails without a panic leaves the handle as
it was, unless the store has refused a change and the refusal has left a mark. -/
namespace ExRocket

open Rust

variable {rt : Rustler} {R : RocksDb}

/-- A call that does not panic under the write guard, by its arguments and the store. -/
def Call.Harmless (rt : Rustler) (db : R.Store) : Call → Prop
  | .writeBatch txs => ¬ BatchPanics rt db txs
  | .putCf cfName _ _ => ∀ name, cfName.decodeString = .ok name → (R.cfHandle db name).isSome
  | .createCf cfName opts =>
    ∀ name, cfName.decodeString = .ok name → ∀ given, decodeOptions opts = .ok given →
      OptionsParse given ∧
        ∀ list, settings given optionKinds = .ok list → R.options list ≠ .error .panic
  | .createCheckpoint path => ∀ p, path.decodeString = .ok p → (R.checkpointNew db).isSome
  | _ => True

theorem reads_harmless {call : Call} {db : R.Store} (reads : call.reads = true) :
    call.Harmless rt db := by
  cases call <;> first | exact trivial | cases reads

/-- What a writing call does: its arguments are refused, or its body runs under the write
guard and panics just when the call is harmful, or under the read guard. -/
def Guarded (rt : Rustler) (w : World R) (call : Call) : Prop :=
  (call.Harmless rt w.handle.db ∧ ∃ stop : Stop, w.step rt call = (stop.reply, w)) ∨
  ∃ body,
    (w.step rt call = w.write body ∧
        (body w.handle.db = .error .panic ↔ ¬ call.Harmless rt w.handle.db)) ∨
      (w.step rt call = w.writeShared body ∧ call.Harmless rt w.handle.db)

theorem familyWrite_panic_iff {name : Str} {op : R.Cf → WriteOp R.Cf} {db : R.Store} :
    familyWrite name op db = .error .panic ↔ ¬ (R.cfHandle db name).isSome := by
  rw [familyWrite, bind_error_iff, unwrap_error_iff]
  simp [pure, Except.pure]

theorem settings_panic_iff {opts : RockerOptions} :
    settings opts optionKinds = .error .panic ↔ ¬ OptionsParse opts := by
  rw [settings_error_iff, OptionsParse]
  simp

theorem createCf_panic_iff {name : Str} {opts : RockerOptions} {db : R.Store} :
    (do
      let dbOpts ← R.options (← settings opts optionKinds)
      return done db (.createCf name dbOpts) : NifResult (Term × R.Store)) = .error .panic ↔
      ¬ (OptionsParse opts ∧
        ∀ list, settings opts optionKinds = .ok list → R.options list ≠ .error .panic) := by
  have last : ∀ list, (R.options list >>= fun dbOpts =>
      (pure (done db (.createCf name dbOpts)) : NifResult _)) = .error .panic ↔
        R.options list = .error .panic := by
    intro list
    simp [bind_error_iff, pure, Except.pure]
  rw [bind_error_iff, settings_panic_iff]
  simp only [last, not_and_or, not_forall, not_not, exists_prop]

theorem checkpoint_panic_iff {path : Str} {db : R.Store} :
    (do
      unwrap (R.checkpointNew db)
      match R.createCheckpoint db path with
      | .ok () => return (.ok, db)
      | .error e => return (.error e, db) : NifResult (Term × R.Store)) = .error .panic ↔
      ¬ (R.checkpointNew db).isSome := by
  rw [bind_error_iff, unwrap_error_iff]
  cases R.createCheckpoint db path <;> simp [pure, Except.pure]

section Writing

variable {w : World R} {call : Call}

theorem guarded_calm {body : R.Store → NifResult (Term × R.Store)}
    (calm : body w.handle.db ≠ .error .panic) (step : w.step rt call = w.write body)
    (harmless : call.Harmless rt w.handle.db) : Guarded rt w call := by
  refine .inr ⟨body, .inl ⟨step, ?_⟩⟩
  constructor
  · exact fun panics => absurd panics calm
  · exact fun harmful => absurd harmless harmful

theorem guarded_done (change : R.Store → Change R.Cf R.Opts)
    (step : w.step rt call = w.write fun db => return done db (change db))
    (harmless : call.Harmless rt w.handle.db) : Guarded rt w call :=
  guarded_calm (fun impossible => (by cases impossible)) step harmless

theorem guarded_decoded {α : Type} {argument : NifResult α} {body : α → Reply × World R}
    (step : w.step rt call = w.decoded argument body)
    (refused : ∀ stop, argument = .error stop → call.Harmless rt w.handle.db)
    (accepted : ∀ value, argument = .ok value → w.step rt call = body value →
      Guarded rt w call) : Guarded rt w call := by
  cases decodes : argument with
  | ok value =>
    apply accepted value decodes
    rw [step, w.decoded_ok body decodes]
  | error stop =>
    refine .inl ⟨refused stop decodes, stop, ?_⟩
    rw [step, decodes]
    rfl

end Writing

theorem step_guarded (rt : Rustler) (w : World R) {call : Call} (writes : call.reads = false) :
    Guarded rt w call := by
  cases call with
  | put | delete | merge | deleteRange => exact guarded_done (fun _ => _) rfl trivial
  | writeBatch txs =>
    refine .inr ⟨applyBatch rt txs, .inl ⟨rfl, ?_⟩⟩
    rw [applyBatch_panic_iff]
    exact not_not.symm
  | dropCf cfName =>
    apply guarded_decoded rfl
    · exact fun _ _ => trivial
    · exact fun name _ step => guarded_done (fun _ => .dropCf name) step trivial
  | mergeCf | deleteRangeCf =>
    apply guarded_decoded rfl
    · exact fun _ _ => trivial
    · intro name _ step
      refine guarded_calm ?_ step trivial
      split <;> exact fun impossible => (by cases impossible)
  | putCf cfName key val =>
    apply guarded_decoded rfl
    · intro stop fails
      simp [Call.Harmless, fails]
    · intro name decodes step
      refine .inr ⟨_, .inl ⟨step, ?_⟩⟩
      simp only [Call.Harmless, decodes, Except.ok.injEq, forall_eq']
      exact familyWrite_panic_iff
  | deleteCf cfName key =>
    apply guarded_decoded rfl
    · exact fun _ _ => trivial
    · exact fun name _ step => .inr ⟨_, .inr ⟨step, trivial⟩⟩
  | createCf cfName opts =>
    apply guarded_decoded rfl
    · intro stop fails
      simp [Call.Harmless, fails]
    · intro name named step
      apply guarded_decoded step
      · intro stop fails
        simp [Call.Harmless, fails]
      · intro given decodes inner
        refine .inr ⟨_, .inl ⟨inner, ?_⟩⟩
        simp only [Call.Harmless, named, decodes, Except.ok.injEq, forall_eq']
        exact createCf_panic_iff
  | createCheckpoint path =>
    apply guarded_decoded rfl
    · intro stop fails
      simp [Call.Harmless, fails]
    · intro p decodes step
      refine .inr ⟨_, .inl ⟨step, ?_⟩⟩
      simp only [Call.Harmless, decodes, Except.ok.injEq, forall_eq']
      exact checkpoint_panic_iff
  | _ => cases writes

/-- What the store refuses of the call leaves no mark on it. -/
def Call.Spared (rt : Rustler) (handle : DbResource R) (call : Call) : Prop :=
  handle.poisoned = false → ∀ asked e, call.change rt handle.db = some asked →
    R.answer handle.db asked = .error e → R.refused handle.db asked = handle.db

namespace World

variable {w v : World R}

/-- On a handle that is not poisoned, a call panics and poisons it just when it is harmful. -/
theorem step_harms (rt : Rustler) (call : Call) (healthy : w.handle.poisoned = false) :
    (call.Harmless rt w.handle.db ∧ (w.step rt call).2.handle.poisoned = false) ∨
      (¬ call.Harmless rt w.handle.db ∧ w.step rt call = (.panicked, w.poison)) := by
  cases reads : call.reads with
  | true => exact .inl ⟨reads_harmless reads, by rw [step_reads rt w reads, healthy]⟩
  | false =>
    rcases step_guarded rt w reads with
      ⟨harmless, stop, step⟩ | ⟨body, ⟨step, panics⟩ | ⟨step, harmless⟩⟩
    all_goals rw [step]
    · exact .inl ⟨harmless, healthy⟩
    · rcases write_cases w body with ⟨poisoned, _⟩ |
        ⟨_, ⟨t, db, returns, result⟩ | ⟨refuses, result⟩ | ⟨panicked, result⟩⟩
      · simp [healthy] at poisoned
      · rw [result]
        exact .inl ⟨not_not.mp (mt panics.mpr (by simp [returns])), healthy⟩
      · rw [result]
        exact .inl ⟨not_not.mp (mt panics.mpr (by simp [refuses])), healthy⟩
      · exact .inr ⟨panics.mp panicked, result⟩
    · rcases writeShared_cases w body with ⟨poisoned, _⟩ |
        ⟨_, ⟨t, db, _, result⟩ | ⟨stop, _, result⟩⟩
      · simp [healthy] at poisoned
      · rw [result]
        exact .inl ⟨harmless, healthy⟩
      · rw [result]
        exact .inl ⟨harmless, healthy⟩

theorem step_healthy_iff (rt : Rustler) (call : Call) (healthy : w.handle.poisoned = false) :
    (w.step rt call).2.handle.poisoned = false ↔ call.Harmless rt w.handle.db := by
  rcases step_harms rt call healthy with ⟨harmless, stays⟩ | ⟨harmful, step⟩
  · simp [harmless, stays]
  · simp [harmful, step]

theorem step_poisoned (rt : Rustler) (call : Call) (poisoned : w.handle.poisoned = true) :
    (w.step rt call).2.handle = w.handle := by
  cases reads : call.reads with
  | true => exact step_reads rt w reads
  | false =>
    rcases step_guarded rt w reads with
      ⟨_, stop, step⟩ | ⟨body, ⟨step, _⟩ | ⟨step, _⟩⟩
    · rw [step]
    · rw [step, write, if_pos poisoned]
    · rw [step, writeShared, if_pos poisoned]

/-- A call that fails leaves the store as it was, if what is refused leaves no mark. -/
theorem step_settles {call : Call} (spared : call.Spared rt w.handle)
    (failed : (w.step rt call).1.failed = true) :
    (w.step rt call).2.handle.db = w.handle.db := by
  cases poisoned : w.handle.poisoned with
  | true => rw [step_poisoned rt call poisoned]
  | false =>
    cases step_ends rt w call with
    | unasked _ same | poisoned _ _ same => exact same
    | accepted _ succeeds => simp [failed] at succeeds
    | refused change _ refuses left => rw [left, spared poisoned _ _ change refuses]

theorem run_poisoned (calls : List Call) (poisoned : w.handle.poisoned = true) :
    (w.run rt calls).2.handle = w.handle := by
  induction calls generalizing w with
  | nil => rfl
  | cons call calls ih =>
    have kept := step_poisoned rt call poisoned
    rw [run_cons, ih (by rw [kept, poisoned]), kept]

variable (rt)

def HarmlessRun (w : World R) : List Call → Prop
  | [] => True
  | call :: calls => call.Harmless rt w.handle.db ∧ HarmlessRun (w.step rt call).2 calls

def SparedRun (w : World R) : List Call → Prop
  | [] => True
  | call :: calls => call.Spared rt w.handle ∧ SparedRun (w.step rt call).2 calls

def succeeding (w : World R) : List Call → List Call
  | [] => []
  | call :: calls =>
    let (reply, w) := w.step rt call
    if reply.failed then succeeding w calls else call :: succeeding w calls

variable {rt}

theorem step_spared {call : Call} (succeeds : (w.step rt call).1.failed = false) :
    call.Spared rt w.handle := by
  intro healthy asked e asks refuses
  cases step_ends rt w call with
  | unasked nothing => simp [asks] at nothing
  | poisoned poisoned => simp [healthy] at poisoned
  | accepted asks' _ answers =>
    rw [asks] at asks'
    cases asks'
    simp [refuses] at answers
  | refused _ failed => simp [succeeds] at failed

theorem run_spared {calls : List Call}
    (succeed : ∀ reply ∈ (w.run rt calls).1, reply.failed = false) : w.SparedRun rt calls := by
  induction calls generalizing w with
  | nil => trivial
  | cons call calls ih =>
    obtain ⟨first, rest⟩ := List.forall_mem_cons.mp succeed
    exact ⟨step_spared first, ih rest⟩

theorem run_healthy_iff (rt : Rustler) (calls : List Call) (healthy : w.handle.poisoned = false) :
    (w.run rt calls).2.handle.poisoned = false ↔ w.HarmlessRun rt calls := by
  induction calls generalizing w with
  | nil => exact ⟨fun _ => trivial, fun _ => healthy⟩
  | cons call calls ih =>
    rw [run_cons, HarmlessRun, ← step_healthy_iff rt call healthy]
    cases after : (w.step rt call).2.handle.poisoned with
    | false => simp [ih after]
    | true => simp [run_poisoned calls after, after]

/- A range with its ends the wrong way round is refused, and then so is every write. -/
example : (Memory.world.run Memory.rustler [.deleteRange (.binary [122]) (.binary [97]),
    .put (.binary [107]) (.binary [49])]).1 =
      [.term (.error Memory.endBeforeStart), .term (.error Memory.endBeforeStart)] := rfl

end World
end ExRocket
