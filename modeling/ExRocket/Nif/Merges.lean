import ExRocket.Merge.Lawful
import ExRocket.Nif.TableSessions

/-! Counters at work, under the counter operator and as texts under the operator for external
terms. What a read finds is what there was at first and every increment that was acknowledged
before: none is lost and none is counted twice, whenever the store compacts. -/
namespace ExRocket

open Regroup Rust Tables
open TwoPhase (Answer Leads)

variable {R : RocksDb} {rt : Rustler} {policy : Nat → Locks.Policy Resource} {w : World R} {n : Nat}
  {s : NifSession R} {before after : List (Answer Reply Call)} {a : Answer Reply Call} {name : Str}
  {key : Bytes} {P : Bytes → Prop}

/-- The key that a read of one key reads, under the name of its family. -/
def Call.readsKey (rt : Rustler) (default : Str) : Call → Option (Str × Bytes)
  | .get key => some (default, key.lazyBinary rt)
  | .getCf cfName key => cfName.decodeString.toOption.map fun name => (name, key.lazyBinary rt)
  | _ => none

theorem found_not_failed (v : Option Bytes) : (Reply.term (found (.ok v))).failed = false := by
  cases v <;> rfl

theorem step_reads_key (K : R.Tabled) {call : Call}
    (reads : call.readsKey rt (K.name none) = some (name, key))
    (succeeds : (w.step rt call).1.failed = false) :
    (w.step rt call).1 = .term (found (.ok ((K.contents w.handle.db).value name key))) := by
  cases call with
  | get k =>
    cases reads
    obtain ⟨v, finds, reply⟩ := get_succeeds succeeds
    rw [K.get _ _ _ _ (knownCf_none _) finds] at reply
    exact reply
  | getCf cfName k =>
    obtain ⟨n, cf, v, named, known, finds, reply⟩ := getCf_succeeds succeeds
    rw [Call.readsKey, named] at reads
    cases reads
    rw [K.get _ _ _ _ (knownCf_some known) finds, K.named known] at reply
    exact reply
  | _ => cases reads

theorem session_finds (K : R.Tabled) (inOrder : R.BatchInOrder)
    (leads : Leads (nifs rt R) Offered policy (.opened w) n s)
    (history : s.history = before ++ a :: after)
    (spared : w.SparedRun rt (before.map Answer.call))
    (timeless : Timeless ((K.contents w.handle.db).operator name key) P)
    (admits : (K.view.pending w.handle.db name key).Admits P)
    (admitted : ∀ command ∈ K.commands rt w (before.map Answer.call), command.Admitted name key P)
    (reads : a.call.readsKey rt (K.name none) = some (name, key)) {v : Option Bytes}
    (replies : a.reply = .term (found (.ok v))) :
    v = ((K.contents w.handle.db).run
      (K.commands rt w (before.map Answer.call))).value name key := by
  have reply := linearized_at leads history
  have succeeds : ((w.run rt (before.map Answer.call)).2.step rt a.call).1.failed = false := by
    rw [← reply, replies]
    exact found_not_failed v
  have value : (K.contents (w.run rt (before.map Answer.call)).2.handle.db).value name key =
      ((K.contents w.handle.db).run
        (K.commands rt w (before.map Answer.call))).value name key :=
    value_run timeless admits admitted (run_commands K inOrder spared)
  rw [step_reads_key K reads succeeds, replies] at reply
  rw [← value]
  injection reply with same
  injection found_injective same

/-- What counts as a counter: nothing but increments of a kind was written to the key, and its
family was neither made nor dropped. -/
def OnlyMerges (P : Bytes → Prop) (name : Str) (key : Bytes)
    (commands : List (Command Str Bytes Bytes)) : Prop :=
  ∀ command ∈ commands, command.onKey name key = .keep ∨
    ∃ operand, P operand ∧ command.onKey name key = .merge operand

def increments (name : Str) (key : Bytes) (commands : List (Command Str Bytes Bytes)) :
    List Bytes :=
  merged (commands.map (Command.onKey name key))

theorem onlyMerges_admitted {commands : List (Command Str Bytes Bytes)}
    (only : OnlyMerges P name key commands) :
    ∀ command ∈ commands, command.Admitted name key P := by
  intro command member
  rcases only command member with keep | ⟨operand, kind, merge⟩
  · refine ⟨by rw [keep]; trivial, ?_⟩
    rintro m rfl
    simp [Command.onKey] at keep
  · refine ⟨by rw [merge]; exact kind, ?_⟩
    rintro m rfl
    simp [Command.onKey] at merge

theorem session_sums (K : R.Tabled) (inOrder : R.BatchInOrder)
    (leads : Leads (nifs rt R) Offered policy (.opened w) n s)
    (history : s.history = before ++ a :: after)
    (spared : w.SparedRun rt (before.map Answer.call))
    (sums : SumsOn stringSumming ((K.contents w.handle.db).operator name key) P)
    (admits : (K.view.pending w.handle.db name key).Admits P)
    (only : OnlyMerges P name key (K.commands rt w (before.map Answer.call)))
    (reads : a.call.readsKey rt (K.name none) = some (name, key)) {v : Option Bytes}
    (replies : a.reply = .term (found (.ok v))) :
    initialResult v = initialResult ((K.contents w.handle.db).value name key) +
      ((increments name key (K.commands rt w (before.map Answer.call))).map counted).sum := by
  rw [session_finds K inOrder leads history spared (.inr sums.lawful) admits
    (onlyMerges_admitted only) reads replies]
  exact counts_run sums rfl only

/-- No increment of a counter is lost and none counts twice, whatever calls there are at the same
time and whenever the store compacts. -/
theorem session_counts (K : R.Tabled) (inOrder : R.BatchInOrder)
    (leads : Leads (nifs rt R) Offered policy (.opened w) n s)
    (history : s.history = before ++ a :: after)
    (spared : w.SparedRun rt (before.map Answer.call))
    (operator : (K.contents w.handle.db).operator name key = counterMerge key)
    (only : OnlyMerges (fun _ => True) name key (K.commands rt w (before.map Answer.call)))
    (reads : a.call.readsKey rt (K.name none) = some (name, key)) {v : Option Bytes}
    (replies : a.reply = .term (found (.ok v))) :
    initialResult v = initialResult ((K.contents w.handle.db).value name key) +
      ((increments name key (K.commands rt w (before.map Answer.call))).map counted).sum := by
  have sums : SumsOn stringSumming ((K.contents w.handle.db).operator name key)
      fun _ => True := by
    rw [operator]
    exact stringSumming.sumsOn
  exact session_sums K inOrder leads history spared sums (fun _ _ => trivial) only reads replies

def twoIncrements : List Call :=
  [.merge (.binary [97]) (.binary [49]), .merge (.binary [97]) (.binary [50])]

def incrementsGet : Call := .get (.binary [97])

theorem incrementsGet_answers {o : MergeOperator}
    (one : Memory.operatorOf Wire.codec (some o) [97] none [[49]] = some [49])
    (two : Memory.operatorOf Wire.codec (some o) [97] (some [49]) [[50]] = some [51]) :
    let w := Memory.mergingWorld (some o)
    answers Memory.rustler w 0 (twoIncrements ++ [incrementsGet]) =
      [⟨0, .merge (.binary [97]) (.binary [49]), .term .ok⟩,
        ⟨1, .merge (.binary [97]) (.binary [50]), .term .ok⟩] ++
      ⟨2, incrementsGet, .term (found (.ok (some [51])))⟩ :: [] ∧
    Memory.tabled.commands Memory.rustler w twoIncrements =
      [.merge "default".toList [97] [49], .merge "default".toList [97] [50]] := by
  intro w
  let holding (sequence : Nat) (v : Bytes) : Memory.MergingStore :=
    { Memory.openedWith (some o) with
      store := ⟨sequence, [("default".toList, [([97], v)])], [], false⟩ }
  have first : Memory.issueMerging Wire.codec w.handle.db (.merge none [97] [49]) =
      .ok (holding 1 [49]) := Memory.issueMerging_merges rfl one rfl
  have second : Memory.issueMerging Wire.codec (holding 1 [49]) (.merge none [97] [50]) =
      .ok (holding 2 [51]) := Memory.issueMerging_merges rfl two rfl
  have here : w.step Memory.rustler (.merge (.binary [97]) (.binary [49])) =
      (.term .ok, w.withDb (holding 1 [49])) := merge_performs [97] [49] w _ rfl rfl first
  have there : (w.withDb (holding 1 [49])).step Memory.rustler
      (.merge (.binary [97]) (.binary [50])) =
      (.term .ok, (w.withDb (holding 1 [49])).withDb (holding 2 [51])) :=
    merge_performs [97] [50] (w.withDb (holding 1 [49])) _ rfl rfl second
  constructor
  · rw [twoIncrements, List.cons_append, answers, here, List.cons_append, answers, there]
    rfl
  · rw [RocksDb.Tabled.commands, twoIncrements, journal, journal, here, there]
    rfl

theorem increments_only (one : P [49]) (two : P [50]) :
    OnlyMerges P "default".toList [97]
      [.merge "default".toList [97] [49], .merge "default".toList [97] [50]] := by
  intro command member
  simp only [List.mem_cons, List.not_mem_nil, or_false] at member
  rcases member with rfl | rfl
  · exact .inr ⟨_, one, rfl⟩
  · exact .inr ⟨_, two, rfl⟩

/-- The calls are all there before the first of them is through. -/
theorem increments_offered (operator : Option MergeOperator) :
    AllOffered Memory.rustler (Memory.mergingWorld operator)
      [twoIncrements ++ [incrementsGet]] :=
  ⟨calls_offered _ rfl, trivial⟩

theorem session_counts_three :
    initialResult (some [51]) = initialResult none + ([[49], [50]].map counted).sum := by
  obtain ⟨_, leads⟩ := rounds_come (increments_offered (some .counter)) 0 []
  obtain ⟨history, commands⟩ := incrementsGet_answers (o := .counter) rfl rfl
  have only := increments_only (P := fun _ => True) trivial trivial
  rw [← commands] at only
  have counts := session_counts Memory.tabled (fun _ _ _ written => written) leads history
    (succeeded_spared leads history rfl) rfl only rfl rfl
  simp only [List.map_cons, List.map_nil] at counts
  exact counts

theorem session_counts_texts {c : Eetf} (K : R.Tabled) (inOrder : R.BatchInOrder)
    (leads : Leads (nifs rt R) Offered policy (.opened w) n s)
    (history : s.history = before ++ a :: after)
    (spared : w.SparedRun rt (before.map Answer.call))
    (operator : (K.contents w.handle.db).operator name key = erlangOperator c key)
    (foreign : (K.view.pending w.handle.db name key).Admits fun op => c.decode op = none)
    (only : OnlyMerges (fun op => c.decode op = none) name key
      (K.commands rt w (before.map Answer.call)))
    (reads : a.call.readsKey rt (K.name none) = some (name, key)) {v : Option Bytes}
    (replies : a.reply = .term (found (.ok v))) :
    initialResult v = initialResult ((K.contents w.handle.db).value name key) +
      ((increments name key (K.commands rt w (before.map Answer.call))).map counted).sum := by
  have sums : SumsOn stringSumming ((K.contents w.handle.db).operator name key)
      fun op => c.decode op = none := by
    rw [operator]
    exact erlang_sums c key
  exact session_sums K inOrder leads history spared sums foreign only reads replies

theorem session_counts_texts_three :
    initialResult (some [51]) = initialResult none + ([[49], [50]].map counted).sum := by
  obtain ⟨_, leads⟩ := rounds_come (increments_offered (some .erlang)) 0 []
  obtain ⟨history, commands⟩ := incrementsGet_answers (o := .erlang) (by decide) (by decide)
  have only := increments_only (P := fun op => Wire.codec.decode op = none) (by decide) (by decide)
  rw [← commands] at only
  have counts := session_counts_texts (c := Wire.codec) Memory.tabled
    (fun _ _ _ written => written) leads history (succeeded_spared leads history rfl) rfl
    (fun _ impossible => (by cases impossible)) only rfl rfl
  simp only [List.map_cons, List.map_nil] at counts
  exact counts

end ExRocket
