import ExRocket.Nif.Linearizable
import ExRocket.Nif.Poison

/-! What the calls that report no failure have asked of the store, in their order: to replay it on
the store that there was at first gives the store that there is now, unless the store has refused
a change and the refusal has left a mark. -/
namespace ExRocket

open Rust
open TwoPhase (Answer Leads)

variable {R : RocksDb} (rt : Rustler)

/-- The changes that the calls of a run have made, those left out that have failed. -/
def journal (w : World R) : List Call → List (Change R.Cf R.Opts)
  | [] => []
  | call :: calls =>
    (if (w.step rt call).1.failed then [] else (call.change rt w.handle.db).toList) ++
      journal (w.step rt call).2 calls

def replay (db : R.Store) (changes : List (Change R.Cf R.Opts)) : Except Str R.Store :=
  changes.foldlM R.answer db

variable {rt}

theorem replay_append (db : R.Store) (changes more : List (Change R.Cf R.Opts)) :
    replay db (changes ++ more) = (replay db changes >>= fun db => replay db more) :=
  List.foldlM_append

theorem journal_cons (w : World R) (call : Call) (calls : List Call) :
    journal rt w (call :: calls) =
      journal rt w [call] ++ journal rt (w.step rt call).2 calls := by
  simp only [journal, List.append_nil]

/-- A call has made the change that it asked for, or none, and then the store is as it was. -/
theorem step_makes {w : World R} {call : Call} (spared : call.Spared rt w.handle) :
    (journal rt w [call] = [] ∧ (w.step rt call).2.handle.db = w.handle.db) ∨
      ∃ change, journal rt w [call] = [change] ∧ call.change rt w.handle.db = some change ∧
        R.answer w.handle.db change = .ok (w.step rt call).2.handle.db := by
  simp only [journal, List.append_nil]
  cases failed : (w.step rt call).1.failed with
  | true => exact .inl ⟨rfl, by rw [World.step_settles spared failed]⟩
  | false =>
    cases step_ends rt w call with
    | unasked nothing same => exact .inl ⟨by rw [nothing]; rfl, by rw [same]⟩
    | poisoned _ fails | refused _ fails => simp [failed] at fails
    | accepted asks _ answers => exact .inr ⟨_, by rw [asks]; rfl, asks, answers⟩

theorem step_replays {w : World R} {call : Call} (spared : call.Spared rt w.handle) :
    replay w.handle.db (journal rt w [call]) = .ok (w.step rt call).2.handle.db := by
  rcases step_makes spared with ⟨nothing, same⟩ | ⟨change, made, _, answers⟩
  · rw [nothing, same]
    rfl
  · rw [made]
    simpa [replay] using answers

theorem run_replays {w : World R} {calls : List Call} (spared : w.SparedRun rt calls) :
    replay w.handle.db (journal rt w calls) = .ok (w.run rt calls).2.handle.db := by
  induction calls generalizing w with
  | nil => rfl
  | cons call calls ih =>
    rw [journal_cons, replay_append, step_replays spared.1, World.run_cons]
    exact ih spared.2

/-- No refusal leaves a mark where every call has succeeded. -/
theorem succeeded_spared {policy : Nat → Locks.Policy Resource} {w : World R} {n : Nat}
    {s : NifSession R} (leads : Leads (nifs rt R) Offered policy (.opened w) n s)
    {before later : List (Answer Reply Call)} (history : s.history = before ++ later)
    (succeeded : before.all (fun a => !a.reply.failed) = true) :
    w.SparedRun rt (before.map Answer.call) := by
  apply World.run_spared
  rw [← (linearized_split leads history).1]
  intro reply member
  obtain ⟨a, there, rfl⟩ := List.mem_map.mp member
  simpa using List.all_eq_true.mp succeeded a there

/-- Whatever calls there are at the same time, and whatever becomes of them: while none of them
has the write guard, the store is what comes of replaying what those that reported no failure
have asked for, in the order in which they ended. -/
theorem session_replays {policy : Nat → Locks.Policy Resource} {w : World R} {n : Nat}
    {s : NifSession R} (leads : Leads (nifs rt R) Offered policy (.opened w) n s)
    (spared : w.SparedRun rt s.calls)
    (unwritten : ∀ j ∈ s.jobs, j.reply = none → writeGuard ∉ j.locks.held) :
    s.history.map Answer.reply = (w.run rt s.calls).1 ∧
      replay w.handle.db (journal rt w s.calls) = .ok s.world.handle.db := by
  refine ⟨(linearized leads).1, ?_⟩
  rw [run_replays spared, linearized_handle leads unwritten]

/-- A put, and a merge that is refused for want of an operator. -/
theorem session_replays_put_merge :
    replay Memory.empty [.issue (.put none [97] [49])] =
      .ok (Memory.world.step Memory.rustler putA).2.handle.db := by
  have offered : AllOffered Memory.rustler Memory.world
      [[putA, .merge (.binary [97]) (.binary [50]), getA]] := ⟨calls_offered _ rfl, trivial⟩
  obtain ⟨_, leads⟩ := rounds_come offered 0 []
  refine (session_replays leads ?_ (by simp)).2
  refine ⟨?_, ?_, ?_, trivial⟩
  · intro _ asked e asks refuses
    cases asks
    cases refuses
  · intro _ asked e asks _
    cases asks
    rfl
  · intro _ asked e asks _
    cases asks

end ExRocket
