import ExRocket.Nif.Memory
import ExRocket.Nif.Programs

/-! Native calls at the same time, step by step. But for the deletion in a family they keep to
their guards, so that they reply as if each had run at once, in the order in which they ended. -/
namespace ExRocket

open Locks Rust
open TwoPhase (Answer Job Leads Program Service Untouched Works)

variable {R : RocksDb}

namespace World

/-- What the locks of the resources guard. -/
def memory (R : RocksDb) : TwoPhase.Memory (World R) Resource where
  same r w v := w.SameAt v r
  same_equivalence r := by
    cases r <;> exact ⟨fun _ => rfl, Eq.symm, Eq.trans⟩
  known w r := r ∈ w.resources

theorem level_numbers {w v : World R} : (memory R).Level w v ↔ w.SameNumbers v := by
  constructor
  · intro level
    have snapshots : ∀ id, id < w.snapshots.length ↔ id < v.snapshots.length := by
      intro id
      rw [← snapshot_mem_resources, ← snapshot_mem_resources]
      exact level _
    have iterators : ∀ id, id < w.iterators.length ↔ id < v.iterators.length := by
      intro id
      rw [← iterator_mem_resources, ← iterator_mem_resources]
      exact level _
    exact ⟨eq_of_forall_lt_iff snapshots, eq_of_forall_lt_iff iterators⟩
  · rintro ⟨snapshots, iterators⟩ r
    cases r with
    | db => simp [memory, resources]
    | snapshot id => exact snapshot_mem_resources.trans (snapshots ▸ snapshot_mem_resources.symm)
    | iterator id => exact iterator_mem_resources.trans (iterators ▸ iterator_mem_resources.symm)

theorem same_iff {w v : World R} : (∀ r, w.SameAt v r) ↔ w = v := by
  constructor
  · intro same
    have handle : w.handle = v.handle := same .db
    have snapshots : w.snapshots = v.snapshots := List.ext_getElem? fun id => same (.snapshot id)
    have iterators : w.iterators = v.iterators := List.ext_getElem? fun id => same (.iterator id)
    cases w
    cases v
    simp only at handle snapshots iterators
    rw [handle, snapshots, iterators]
  · rintro rfl r
    exact w.sameAt_refl r

end World

section Framed

variable {held : List (Guard Resource)}

theorem agree_handle {w v : World R} {g : Guard Resource} (guarded : g ∈ held)
    (ofDb : g.lock = .db) (agree : (World.memory R).Agree held w v) : w.handle = v.handle := by
  have same := agree g guarded
  rw [ofDb] at same
  exact same

theorem framed_stopWith (reply : Reply) :
    (World.memory R).Framed held (stopWith reply) := by
  refine .finish ?_ ?_ ?_
  · exact fun w v _ level => ⟨rfl, level, fun _ same => same⟩
  · exact fun w r _ _ => w.sameAt_refl r
  · exact fun _ _ known => known

theorem framed_peek {next : World R → NifProgram R}
    (chooses : ∀ w v, (World.memory R).Agree held w v → next w = next v)
    (framed : ∀ w, (World.memory R).Framed held (next w)) :
    (World.memory R).Framed held (peek next) :=
  .act (fun _ _ _ _ same => same) (fun w r _ => w.sameAt_refl r) (fun _ => .refl _) chooses framed

theorem framed_program {S α : Type} {view : World R → S} {next : NifResult α → NifProgram R}
    (body : Body S α) (sees : ∀ w v, (World.memory R).Agree held w v → view w = view v)
    (framed : ∀ result, (World.memory R).Framed held (next result)) :
    (World.memory R).Framed held (body.program view next) := by
  induction body with
  | done result => exact framed result
  | look rest ih =>
    refine framed_peek ?_ fun w => ih (view w)
    intro w v agree
    rw [sees w v agree]

/-- What is made gets the same number in worlds of the same size, and is there in both. -/
theorem release_same {w v : World R} (made : Made R) (numbers : w.SameNumbers v) {r : Resource}
    (same : w.SameAt v r) : (w.release made).2.SameAt (v.release made).2 r := by
  obtain ⟨snapshots, iterators⟩ := numbers
  cases made with
  | term t => exact same
  | snapshot snap =>
    cases r with
    | snapshot id =>
      have here : w.snapshots[id]? = v.snapshots[id]? := same
      simp only [World.release, World.SameAt, List.getElem?_append, snapshots, here]
    | db | iterator => exact same
  | iterator iter =>
    cases r with
    | iterator id =>
      have here : w.iterators[id]? = v.iterators[id]? := same
      simp only [World.release, World.SameAt, List.getElem?_append, iterators, here]
    | db | snapshot => exact same

theorem release_numbers {w v : World R} (made : Made R) (numbers : w.SameNumbers v) :
    (w.release made).2.SameNumbers (v.release made).2 := by
  obtain ⟨snapshots, iterators⟩ := numbers
  cases made <;> simp [World.release, World.SameNumbers, snapshots, iterators]

theorem release_known {w : World R} (made : Made R) {r : Resource} (known : r ∈ w.resources) :
    r ∈ (w.release made).2.resources := by
  cases r with
  | db => simp [World.resources]
  | snapshot id =>
    rw [World.snapshot_mem_resources] at known ⊢
    cases made <;> simp only [World.release, List.length_append] <;> omega
  | iterator id =>
    rw [World.iterator_mem_resources] at known ⊢
    cases made <;> simp only [World.release, List.length_append] <;> omega

theorem framed_returning (result : NifResult (Made R)) :
    (World.memory R).Framed held (returning result) := by
  cases result with
  | error stop => exact framed_stopWith _
  | ok made =>
    refine .finish ?_ ?_ ?_
    · intro w v _ level
      have numbers := World.level_numbers.mp level
      exact ⟨World.release_reply numbers made,
        World.level_numbers.mpr (release_numbers made numbers),
        fun r same => release_same made numbers same⟩
    · exact fun w r known _ => World.release_sameAt made known
    · exact fun w r known => release_known made known

theorem framed_decoding {α : Type} (argument : NifResult α) {body : α → NifProgram R}
    (framed : ∀ value, (World.memory R).Framed held (body value)) :
    (World.memory R).Framed held (decoding argument body) := by
  cases argument with
  | ok value => exact framed value
  | error stop => exact framed_stopWith _

theorem framed_openDb {guard : Guard Resource} (ofDb : guard.lock = .db) {body : NifProgram R}
    (framed : (World.memory R).Framed (guard :: held) body) :
    (World.memory R).Framed held (openDb guard body) := by
  refine .take (framed_peek ?_ ?_)
  · intro w v agree
    rw [agree_handle List.mem_cons_self ofDb agree]
  · intro w
    split
    · exact framed_stopWith _
    · exact framed

theorem framed_reading (body : Body R.Store (Made R)) :
    (World.memory R).Framed [] (reading body) := by
  refine framed_openDb rfl (framed_program body ?_ framed_returning)
  intro w v agree
  rw [handleDb, agree_handle List.mem_cons_self rfl agree]
  rfl

theorem writeGuard_untouched {r : Resource} (untouched : Untouched [writeGuard] r) : r ≠ .db :=
  not_writeGuard untouched

/-- To change the handle as it is under the write guard. -/
theorem framed_handle {change : World R → World R} {rest : World R → NifProgram R}
    (update : DbResource R → DbResource R)
    (changes : ∀ w, change w = { w with handle := update w.handle })
    (chooses : ∀ w v : World R, w.handle = v.handle → rest w = rest v)
    (framed : ∀ w, (World.memory R).Framed [writeGuard] (rest w)) :
    (World.memory R).Framed [writeGuard] (.act change rest) := by
  refine .act ?_ ?_ ?_ ?_ framed
  · intro w v r agree same
    have handle := agree_handle List.mem_cons_self rfl agree
    rw [changes, changes]
    cases r with
    | db => exact congrArg update handle
    | snapshot | iterator => exact same
  · intro w r untouched
    rw [changes]
    exact sameAt_handle (writeGuard_untouched untouched) _
  · intro w
    rw [changes]
    exact .refl _
  · exact fun w v agree => chooses w v (agree_handle List.mem_cons_self rfl agree)

theorem framed_writing (body : Body R.Store (R.Store → Term × R.Store)) :
    (World.memory R).Framed [] (writing body) := by
  refine framed_openDb rfl (framed_program body ?_ ?_)
  · intro w v agree
    rw [handleDb, agree_handle List.mem_cons_self rfl agree]
    rfl
  · rintro ((_ | _) | write)
    · exact framed_stopWith _
    · exact framed_handle (fun handle => { handle with poisoned := true }) (fun _ => rfl)
        (fun _ _ _ => rfl) fun _ => framed_stopWith _
    · refine framed_handle (fun handle => { handle with db := (write handle.db).2 }) (fun _ => rfl)
        ?_ fun _ => framed_stopWith _
      intro w v handle
      rw [handle]

theorem agree_snapshot {w v : World R} {id : Nat} (guarded : snapGuard id ∈ held)
    (agree : (World.memory R).Agree held w v) : w.snapshots[id]? = v.snapshots[id]? :=
  agree _ guarded

theorem framed_poisonSnapshot (id : Nat) (guarded : snapGuard id ∈ held) (reply : Reply) :
    (World.memory R).Framed held
      (.act (World.poisonSnapshot id) fun _ => stopWith (R := R) reply) := by
  refine .act ?_ ?_ ?_ (fun _ _ _ => rfl) fun _ => framed_stopWith _
  · intro w v r _ same
    cases r with
    | snapshot other =>
      have here : w.snapshots[other]? = v.snapshots[other]? := same
      simp only [World.memory, World.SameAt, World.poisonSnapshot, List.getElem?_modify, here]
    | db | iterator => exact same
  · intro w r untouched
    cases r with
    | snapshot other =>
      have different : id ≠ other := by
        rintro rfl
        cases untouched _ guarded rfl
      exact List.getElem?_modify_ne _ _ different
    | db | iterator => rfl
  · intro w
    rw [World.level_numbers]
    simp [World.SameNumbers, World.poisonSnapshot]

/-- What the body looks at is guarded: the snapshot, and whatever else its view shows. -/
theorem framed_locking {S : Type} (id : Nat) {view : World R → R.Snap → S}
    (body : Body S (Made R))
    (sees : ∀ w v snap, (World.memory R).Agree (snapGuard id :: held) w v →
      view w snap = view v snap) :
    (World.memory R).Framed held (locking id view body) := by
  have guarded : snapGuard id ∈ snapGuard id :: held := List.mem_cons_self
  refine .take (framed_peek ?_ ?_)
  · intro w v agree
    rw [agree_snapshot guarded agree]
  · intro w
    split
    · exact framed_stopWith _
    · split
      · exact framed_stopWith _
      · apply framed_program body
        · intro w v agree
          rw [World.snapshotAt, World.snapshotAt, agree_snapshot guarded agree]
          exact sees w v _ agree
        · rintro ((_ | _) | made)
          · exact framed_stopWith _
          · exact framed_poisonSnapshot id guarded _
          · exact framed_returning _

theorem framed_lockingSnapshot (id : Nat) (body : Body R.Snap (Made R)) :
    (World.memory R).Framed [] (lockingSnapshot id body) :=
  framed_locking id body fun _ _ _ _ => rfl

theorem framed_readingSnapshot (resource : Term) (body : Body (R.Store × R.Snap) (Made R)) :
    (World.memory R).Framed [] (readingSnapshot resource body) := by
  refine framed_decoding _ fun id => framed_openDb rfl (framed_locking id body ?_)
  intro w v snap agree
  have held : readGuard ∈ [snapGuard id, readGuard] := by simp
  rw [agree_handle held rfl agree]

theorem framed_advancing (id : Nat) (step : R.Iter → Term × R.Iter) :
    (World.memory R).Framed [] (advancing id step) := by
  have guarded : iterGuard id ∈ [iterGuard id] := List.mem_cons_self
  have agrees : ∀ {w v : World R}, (World.memory R).Agree [iterGuard id] w v →
      w.iterators[id]? = v.iterators[id]? := fun agree => agree _ guarded
  refine .take (framed_peek ?_ ?_)
  · intro w v agree
    rw [agrees agree]
  · intro w
    split
    · exact framed_stopWith _
    · split
      · exact framed_stopWith _
      · refine .act ?_ ?_ ?_ ?_ ?_
        · intro w v r _ same
          cases r with
          | iterator other =>
            have here : w.iterators[other]? = v.iterators[other]? := same
            simp only [World.memory, World.SameAt, World.advance, List.getElem?_modify, here]
          | db | snapshot => exact same
        · intro w r untouched
          cases r with
          | iterator other =>
            have different : id ≠ other := by
              rintro rfl
              cases untouched _ guarded rfl
            exact List.getElem?_modify_ne _ _ different
          | db | snapshot => rfl
        · intro w
          rw [World.level_numbers]
          simp [World.SameNumbers, World.advance]
        · intro w v agree
          rw [agrees agree]
        · intro w
          split <;> exact framed_stopWith _

/-- Every function but one does only what its guards allow. -/
theorem program_framed (rt : Rustler) (call : Call)
    (other : ∀ cfName key, call ≠ .deleteCf cfName key) :
    (World.memory R).Framed [] (call.program rt) := by
  unfold Call.program
  cases call with
  | put | delete | merge | writeBatch | deleteRange => exact framed_writing _
  | latestSequenceNumber | getDbPath | get | iterator | prefixIterator | multiGet | multiGetCf
  | keyMayExist | snapshot => exact framed_reading _
  | mergeCf | dropCf | putCf | deleteRangeCf | createCheckpoint =>
    exact framed_decoding _ fun _ => framed_writing _
  | getCf | iteratorCf | prefixIteratorCf | keyMayExistCf | createBackup =>
    exact framed_decoding _ fun _ => framed_reading _
  | deleteCf cfName key => exact absurd rfl (other cfName key)
  | createCf => exact framed_decoding _ fun _ => framed_decoding _ fun _ => framed_writing _
  | iteratorRange => exact framed_decoding _ fun _ => framed_decoding _ fun _ => framed_reading _
  | next resource =>
    cases resource with
    | resource r =>
      cases r with
      | iterator id => exact framed_advancing id _
      | db | snapshot => exact framed_stopWith _
    | _ => exact framed_stopWith _
  | snapshotGet | snapshotMultiGet | snapshotIterator =>
    exact framed_decoding _ fun _ => framed_lockingSnapshot _ _
  | snapshotGetCf | snapshotIteratorCf =>
    exact framed_decoding _ fun _ => framed_readingSnapshot _ _
  | snapshotMultiGetCf => exact framed_readingSnapshot _ _

end Framed
/-- The native functions that are given a resource. -/
def nifs (rt : Rustler) (R : RocksDb) : Service (World R) Resource Reply Call :=
  ⟨Call.guards, Call.program rt, program_takes rt⟩

/-- Native calls at the same time. -/
abbrev NifSession (R : RocksDb) := TwoPhase.Session (World R) Resource Reply Call

/-- Who calls holds the resources that the call works on, and it is no deletion in a family. -/
def Offered (w : World R) (call : Call) : Prop :=
  (∀ g ∈ call.guards, g.lock ∈ w.resources) ∧ ∀ cfName key, call ≠ .deleteCf cfName key

variable {rt : Rustler} {policy policy' : Nat → Policy Resource} {w : World R} {n n' : Nat}
  {s s' : NifSession R}

theorem serial_run (w : World R) (calls : List Call) :
    (nifs rt R).serial w calls = w.run rt calls := by
  induction calls generalizing w with
  | nil => rfl
  | cons call calls ih => simp only [Service.serial, nifs, program_run, World.run_cons, ← ih]

theorem offered_careful : TwoPhase.Careful (World.memory R) (nifs rt R) Offered :=
  fun _ call start => ⟨program_framed rt call start.2, start.1⟩

theorem ranked_distinct {guards : List (Guard Resource)} (ranked : Ranked guards) :
    TwoPhase.Distinct guards :=
  ranked.imp fun below same => absurd (congrArg Resource.rank same) (Nat.ne_of_lt below)

/-- The calls on a database alone, but for the deletion in a family. -/
def Call.onDb : Call → Bool
  | .deleteCf .. | .next _ | .snapshotGet .. | .snapshotGetCf .. | .snapshotMultiGet ..
  | .snapshotMultiGetCf _ _ | .snapshotIterator .. | .snapshotIteratorCf .. => false
  | _ => true

theorem mem_after {α : Type} {argument : NifResult α} {guards : α → List (Guard Resource)}
    {g : Guard Resource} (member : g ∈ after argument guards) :
    ∃ value, argument = .ok value ∧ g ∈ guards value := by
  cases argument with
  | ok value => exact ⟨value, rfl, member⟩
  | error stop => cases member

theorem onDb_locks {call : Call} (onDb : call.onDb = true) : ∀ g ∈ call.guards, g.lock = .db := by
  have single : ∀ {g h : Guard Resource}, h.lock = .db → g ∈ [h] → g.lock = .db := by
    intro g h ofDb member
    rw [List.mem_singleton.mp member, ofDb]
  intro g member
  cases call with
  | deleteCf | next | snapshotGet | snapshotGetCf | snapshotMultiGet | snapshotMultiGetCf
  | snapshotIterator | snapshotIteratorCf => cases onDb
  | mergeCf | dropCf | putCf | getCf | iteratorCf | prefixIteratorCf | deleteRangeCf
  | keyMayExistCf | createCheckpoint | createBackup =>
    obtain ⟨_, _, inside⟩ := mem_after member
    exact single rfl inside
  | createCf | iteratorRange =>
    obtain ⟨_, _, inner⟩ := mem_after member
    obtain ⟨_, _, inside⟩ := mem_after inner
    exact single rfl inside
  | _ => exact single rfl member

theorem call_offered (w : World R) {call : Call} (onDb : call.onDb = true) : Offered w call := by
  constructor
  · intro g member
    rw [onDb_locks onDb g member]
    exact List.mem_cons_self
  · rintro cfName key rfl
    cases onDb

theorem calls_offered (w : World R) {calls : List Call} (onDb : calls.all Call.onDb = true) :
    ∀ call ∈ calls, Offered w call :=
  fun call member => call_offered w (List.all_eq_true.mp onDb call member)

abbrev NifJob (R : RocksDb) := Job (World R) Resource Reply Call

/-- A call that has arrived does what the function does, while other calls hold no guard that
keeps it from one of its own. -/
theorem job_runs (rt : Rustler) (w : World R) (call : Call) (k n : Nat)
    (h : List (Answer Reply Call)) (front back : List (NifJob R))
    (beside : ∀ j ∈ front ++ back, ∀ held ∈ j.locks.held, ∀ g ∈ call.guards, g.Beside held) :
    TwoPhase.Comes (nifs rt R) Offered .plain ⟨w, n, front ++ (nifs rt R).job k call :: back, h⟩
      ⟨(w.step rt call).2, n, front ++ back, h ++ [⟨k, call, (w.step rt call).1⟩]⟩ := by
  have runs : TwoPhase.Comes (nifs rt R) Offered .plain
      ⟨w, n, front ++ (nifs rt R).job k call :: back, h⟩ _ :=
    TwoPhase.among_runs (call.program rt) rfl (TwoPhase.sound_arriving _ _ _) rfl rfl
      (ranked_distinct (guards_ranked call)) beside
  rw [program_run] at runs
  exact runs

/-- The answers to calls that end one after the other, the first of them with this ticket. -/
def answers (rt : Rustler) (w : World R) (k : Nat) : List Call → List (Answer Reply Call)
  | [] => []
  | call :: calls =>
    ⟨k, call, (w.step rt call).1⟩ :: answers rt (w.step rt call).2 (k + 1) calls

def arrivals (rt : Rustler) (R : RocksDb) (k : Nat) : List Call → List (NifJob R)
  | [] => []
  | call :: calls => (nifs rt R).job k call :: arrivals rt R (k + 1) calls

theorem arrivals_free {rt : Rustler} {R : RocksDb} {k : Nat} {calls : List Call} :
    ∀ j ∈ arrivals rt R k calls, j.locks.held = [] := by
  induction calls generalizing k with
  | nil => simp [arrivals]
  | cons call calls ih => exact List.forall_mem_cons.mpr ⟨rfl, ih⟩

theorem calls_arrive (rt : Rustler) {calls : List Call} {w : World R}
    (offered : ∀ call ∈ calls, Offered w call) (k : Nat) (jobs : List (NifJob R))
    (h : List (Answer Reply Call)) :
    TwoPhase.Comes (nifs rt R) Offered .plain ⟨w, k, jobs, h⟩
      ⟨w, k + calls.length, jobs ++ arrivals rt R k calls, h⟩ := by
  induction calls generalizing k jobs with
  | nil => simpa [arrivals] using TwoPhase.Comes.refl _
  | cons call calls ih =>
    obtain ⟨first, rest⟩ := List.forall_mem_cons.mp offered
    have arrives : TwoPhase.Comes (nifs rt R) Offered .plain ⟨w, k, jobs, h⟩
        ⟨w, k + 1, jobs ++ [(nifs rt R).job k call], h⟩ := ⟨1, .step .start (.arrive first)⟩
    have whole := arrives.trans (ih rest (k + 1) (jobs ++ [(nifs rt R).job k call]))
    rw [List.append_assoc, Nat.add_assoc, Nat.add_comm 1] at whole
    exact whole

/-- Calls that have all arrived end in the order in which they came. -/
theorem calls_end (rt : Rustler) (calls : List Call) (w : World R) (k n : Nat)
    (h : List (Answer Reply Call)) :
    TwoPhase.Comes (nifs rt R) Offered .plain ⟨w, n, arrivals rt R k calls, h⟩
      ⟨(w.run rt calls).2, n, [], h ++ answers rt w k calls⟩ := by
  induction calls generalizing w k h with
  | nil => simpa [arrivals, answers] using TwoPhase.Comes.refl _
  | cons call calls ih =>
    have here := job_runs rt w call k n h [] (arrivals rt R (k + 1) calls) (by
      intro j member held holds
      rw [arrivals_free j member] at holds
      cases holds)
    have whole := here.trans (ih (w.step rt call).2 (k + 1) _)
    rw [List.append_assoc] at whole
    exact whole

/-- The calls of each round are offered in the world that the rounds before it come to. -/
def AllOffered (rt : Rustler) (w : World R) : List (List Call) → Prop
  | [] => True
  | round :: rounds =>
    (∀ call ∈ round, Offered w call) ∧ AllOffered rt (w.run rt round).2 rounds

theorem answers_append (rt : Rustler) (w : World R) (k : Nat) (calls more : List Call) :
    answers rt w k (calls ++ more) =
      answers rt w k calls ++ answers rt (w.run rt calls).2 (k + calls.length) more := by
  induction calls generalizing w k with
  | nil => rfl
  | cons call calls ih =>
    rw [List.cons_append, answers, ih, answers, List.length_cons, Nat.add_comm calls.length,
      ← Nat.add_assoc]
    rfl

theorem run_append_world (w : World R) (calls more : List Call) :
    (w.run rt (calls ++ more)).2 = ((w.run rt calls).2.run rt more).2 := by
  rw [← serial_run, TwoPhase.serial_append, serial_run, serial_run]

/-- Every run is a session, whichever of its calls are there at the same time. -/
theorem rounds_come {rounds : List (List Call)} {w : World R} (offered : AllOffered rt w rounds)
    (k : Nat) (h : List (Answer Reply Call)) :
    TwoPhase.Comes (nifs rt R) Offered .plain ⟨w, k, [], h⟩
      ⟨(w.run rt rounds.flatten).2, k + rounds.flatten.length, [],
        h ++ answers rt w k rounds.flatten⟩ := by
  induction rounds generalizing w k h with
  | nil => simpa [answers] using TwoPhase.Comes.refl _
  | cons round rounds ih =>
    have arrive := calls_arrive rt offered.1 k [] h
    have round_ends := arrive.trans (calls_end rt round w k (k + round.length) h)
    have whole := round_ends.trans
      (ih offered.2 (k + round.length) (h ++ answers rt w k round))
    rw [List.append_assoc, ← answers_append, ← run_append_world, Nat.add_assoc,
      ← List.length_append] at whole
    exact whole

/-- The replies of a session are those of a run of its calls, and so is what it leaves of what no
call in progress has locked for itself. -/
theorem linearized (leads : Leads (nifs rt R) Offered policy (.opened w) n s) :
    s.history.map Answer.reply = (w.run rt s.calls).1 ∧
      ∀ r, (∀ j ∈ s.jobs, j.reply = none → Untouched j.locks.held r) →
        s.world.SameAt (w.run rt s.calls).2 r := by
  have serial := TwoPhase.leads_serial offered_careful leads
  have settled : s.settled (nifs rt R) w = (w.run rt s.calls).2 :=
    congrArg Prod.snd (serial_run w s.calls)
  have same := serial.same
  rw [settled] at same
  refine ⟨?_, same⟩
  rw [serial.replies, serial_run]

/-- While no call in progress has the write guard, the handle is as a run leaves it. -/
theorem linearized_handle (leads : Leads (nifs rt R) Offered policy (.opened w) n s)
    (unwritten : ∀ j ∈ s.jobs, j.reply = none → writeGuard ∉ j.locks.held) :
    s.world.handle = (w.run rt s.calls).2.handle := by
  apply (linearized leads).2 .db
  rintro j member unanswered ⟨lock, access⟩ holds rfl
  cases access with
  | shared => rfl
  | exclusive => exact absurd holds (unwritten j member unanswered)

/-- The replies up to any point of the history are those of a run, and so are those from there
on. -/
theorem linearized_split (leads : Leads (nifs rt R) Offered policy (.opened w) n s)
    {before later : List (Answer Reply Call)} (history : s.history = before ++ later) :
    before.map Answer.reply = (w.run rt (before.map Answer.call)).1 ∧
      later.map Answer.reply =
        ((w.run rt (before.map Answer.call)).2.run rt (later.map Answer.call)).1 := by
  have replies := (linearized leads).1
  rw [TwoPhase.Session.calls, history, List.map_append, List.map_append, ← serial_run,
    TwoPhase.serial_append] at replies
  have lengths : (before.map Answer.reply).length =
      ((nifs rt R).serial w (before.map Answer.call)).1.length := by
    simp [TwoPhase.serial_length]
  obtain ⟨first, rest⟩ := List.append_inj replies lengths
  rw [serial_run] at first
  rw [serial_run, serial_run] at rest
  exact ⟨first, rest⟩

theorem linearized_at (leads : Leads (nifs rt R) Offered policy (.opened w) n s)
    {before later : List (Answer Reply Call)} {a : Answer Reply Call}
    (history : s.history = before ++ a :: later) :
    a.reply = ((w.run rt (before.map Answer.call)).2.step rt a.call).1 :=
  (List.cons.inj (linearized_split leads history).2).1

/-- A session replies what a run of its calls replies, one after another in the order in which
they ended, and once every call has replied it leaves the same world. -/
theorem calls_linearizable (leads : Leads (nifs rt R) Offered policy (.opened w) n s) :
    s.history.map Answer.reply = (w.run rt s.calls).1 ∧
      (∀ r, (∀ j ∈ s.jobs, j.reply = none → Untouched j.locks.held r) →
        s.world.SameAt (w.run rt s.calls).2 r) ∧
      ((∀ j ∈ s.jobs, j.reply ≠ none) → s.world = (w.run rt s.calls).2) := by
  obtain ⟨replies, same⟩ := linearized leads
  refine ⟨replies, same, ?_⟩
  intro answered
  apply World.same_iff.mp
  intro r
  exact same r fun j member unanswered => absurd unanswered (answered j member)

def putA : Call := .put (.binary [97]) (.binary [49])

def getA : Call := .get (.binary [97])

/-- A get is there when a put arrives, and the put is through first. -/
theorem put_overtakes : TwoPhase.Comes (nifs Memory.rustler Memory.rocksDb) Offered .plain
    (.opened Memory.world)
    ⟨(Memory.world.step Memory.rustler putA).2, 2, [(nifs Memory.rustler _).job 0 getA],
      [⟨1, putA, .term .ok⟩]⟩ := by
  have both : ∀ call ∈ [getA, putA], Offered Memory.world call := calls_offered _ rfl
  exact (calls_arrive Memory.rustler both 0 [] []).trans
    (job_runs Memory.rustler Memory.world putA 1 2 [] [(nifs Memory.rustler _).job 0 getA] []
      (by simp [Service.job, Caller.arriving]))

theorem calls_linearizable_put_get :
    (Memory.world.run Memory.rustler [putA, getA]).1 =
      [.term .ok, .term (.tuple [.ok, .binary [49]])] := by
  obtain ⟨_, leads⟩ := put_overtakes.trans
    (job_runs Memory.rustler _ getA 0 2 _ [] [] (by simp))
  exact (calls_linearizable leads).1.symm

/-- Each call that has arrived has replied once or has still to reply; what it replies is what
its caller gets; and it stands in the history before every call that arrived after it was
gone. -/
theorem calls_in_real_time (before : Leads (nifs rt R) Offered policy (.opened w) n s)
    (after : Leads (nifs rt R) Offered policy' s n' s') :
    s'.Counted ∧ s'.Recorded ∧
      ∀ a ∈ s'.history, ∀ b ∈ s'.history, a.ticket < s.arrived →
        (∀ j ∈ s.jobs, j.ticket ≠ a.ticket) → s.arrived ≤ b.ticket →
        ∃ front back, s'.history = front ++ back ∧ a ∈ front ∧ b ∈ back := by
  have counted := TwoPhase.leads_counted before (TwoPhase.opened_counted w)
  have recorded := TwoPhase.leads_recorded before (TwoPhase.opened_recorded w)
  refine ⟨TwoPhase.leads_counted after counted, TwoPhase.leads_recorded after recorded, ?_⟩
  intro a first b second started gone later
  exact TwoPhase.history_in_order before after first second started gone later

/-- The get that arrives after the put has gone stands behind it, while another get, which was
there before both, is still on its way. -/
theorem calls_in_real_time_put_get : ∃ front back,
    ([⟨1, putA, .term .ok⟩, ⟨2, getA, .term (.tuple [.ok, .binary [49]])⟩] :
      List (Answer Reply Call)) = front ++ back ∧
      ⟨1, putA, .term .ok⟩ ∈ front ∧
      ⟨2, getA, .term (.tuple [.ok, .binary [49]])⟩ ∈ back := by
  obtain ⟨_, puts⟩ := put_overtakes
  have offered : ∀ call ∈ [getA], Offered (Memory.world.step Memory.rustler putA).2 call :=
    calls_offered _ rfl
  have arrives := calls_arrive Memory.rustler offered 2
    [(nifs Memory.rustler _).job 0 getA] [⟨1, putA, .term .ok⟩]
  obtain ⟨_, gets⟩ := arrives.trans (job_runs Memory.rustler _ getA 2 3 _
    [(nifs Memory.rustler _).job 0 getA] [] (by simp [Service.job, Caller.arriving]))
  exact (calls_in_real_time puts gets).2.2 _ (.head _) _ (.tail _ (.head _)) (by simp)
    (by simp [Service.job]) (by simp)

/-- While no call arrives, those in progress come to an end: some call can always make a step,
and not forever. The deletion in a family is no exception. -/
theorem calls_return {starts : World R → Call → Prop}
    (leads : Leads (nifs rt R) starts policy (.opened w) n s) :
    (∀ policy, s.jobs ≠ [] → ∃ s', Works policy s s') ∧
      ¬ ∃ later : Nat → NifSession R, later 0 = s ∧
        ∀ k, ∃ policy, Works policy (later k) (later (k + 1)) := by
  have sound := TwoPhase.leads_sound leads
  have ordered : ∀ c ∈ s.locks, c.Ordered Resource.rank :=
    TwoPhase.leads_ordered leads guards_ranked
  constructor
  · exact fun policy busy => TwoPhase.exists_works policy sound ordered busy
  · rintro ⟨later, start, works⟩
    have ends := acc_iff_isEmpty_descending_chain.mp (TwoPhase.works_acc sound)
    exact ends.false ⟨later, start, works⟩

/-- A reader that has its guard, and a writer that waits for it. -/
theorem calls_return_waiting : ∃ s : NifSession Memory.rocksDb, s.jobs.length = 2 ∧
    ∃ s', Works .writersFirst s s' := by
  have nobody : Leads (nifs Memory.rustler Memory.rocksDb) Offered (fun _ => .writersFirst)
      (.opened Memory.world) 0 _ := .start
  have reader := nobody.step (.arrive (@call_offered _ _ (.get .nil) rfl))
  have asks := reader.step (.work (.ask (i := 0) rfl rfl rfl))
  have writer := asks.step (.arrive (@call_offered _ _ (.delete .nil) rfl))
  have waits := writer.step (.work (.ask (i := 1) rfl rfl rfl))
  exact ⟨_, rfl, (calls_return waits).1 .writersFirst (List.cons_ne_nil _ _)⟩

end ExRocket
