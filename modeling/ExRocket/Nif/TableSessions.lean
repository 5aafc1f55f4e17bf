import ExRocket.Nif.MergingMemory

/-! Sessions on tables. Calls run at the same time on a store that compacts whenever it likes;
what a read returns is still what tables hold on which the acknowledged calls have acted one
after the other, each at once and whole. -/
namespace ExRocket

open Regroup Rust Tables
open TwoPhase (Answer Leads)

variable {R : RocksDb} {rt : Rustler}

/-- In a session on operands to which it does not matter when they are merged, every read that
succeeds returns what tables hold on which the calls that were acknowledged before it have acted
one by one, merges at once and batches whole; and a call in a family succeeds only while there is
the family. -/
theorem session_reads_tables (K : R.Tabled) (inOrder : R.BatchInOrder) (eachGet : R.MultiGetEach)
    {policy : Nat → Locks.Policy Resource} {w : World R} {n : Nat} {s : NifSession R}
    (leads : Leads (nifs rt R) Offered policy (.opened w) n s)
    {before after : List (Answer Reply Call)} {a : Answer Reply Call}
    (history : s.history = before ++ a :: after)
    (spared : w.SparedRun rt (before.map Answer.call)) {P : Str → Bytes → Bytes → Prop}
    (admitted : K.Admitted rt w (before.map Answer.call) P) (succeeds : a.reply.failed = false) :
    let tables := (K.contents w.handle.db).run (K.commands rt w (before.map Answer.call))
    (a.call.gets = true → ∃ t, a.reply = .term t ∧ Reads rt (K.name none) tables a.call t) ∧
      ∀ cfName, a.call.family = some cfName →
        ∃ name ∈ tables.names, cfName.decodeString = .ok name := by
  intro tables
  have reply := linearized_at leads history
  have stands : K.contents (w.run rt (before.map Answer.call)).2.handle.db = tables :=
    run_contents K inOrder spared admitted
  rw [reply] at succeeds ⊢
  rw [← stands]
  constructor
  · exact fun gets => step_reads_tables K eachGet gets succeeds
  · intro cfName family
    obtain ⟨name, named, known⟩ := family_known family succeeds
    exact ⟨name, (K.known _ _).mpr known, named⟩

theorem decodeOption_known {opts : RockerOptions} {name : String} {kind : OptionKind} {t : Term}
    {v : OptionValue} (known : optionKinds.lookup name = some kind)
    (decodes : kind.decode t = .ok v) :
    decodeOption opts (.atom name, t) = .ok ((name, v) :: opts) := by
  simp only [decodeOption, Term.atomToString, known, decodes, bind, Except.bind, pure, Except.pure]

theorem createCf_makes {w : World R} {cfName opts : Term} {name : Str} {given : RockerOptions}
    {dbOpts : R.Opts} {db : R.Store} (healthy : w.handle.poisoned = false)
    (named : cfName.decodeString = .ok name) (decodes : decodeOptions opts = .ok given)
    (chosen : (settings given optionKinds >>= R.options) = .ok dbOpts)
    (creates : R.createCf w.handle.db name dbOpts = .ok db) :
    w.step rt (.createCf cfName opts) = (.term .ok, w.withDb db) ∧
      (Call.createCf cfName opts).change rt w.handle.db = some (.createCf name dbOpts) := by
  constructor
  · rw [World.step, World.createCf, World.decoded_ok w _ named, World.decoded_ok w _ decodes]
    apply World.write_ok healthy
    obtain ⟨handed, sets, chosen'⟩ := bind_ok chosen
    rw [sets]
    change (R.options handed >>= _) = _
    rw [chosen']
    exact done_returns creates
  · rw [Call.change, named, decodes]
    change ((settings given optionKinds >>= R.options).toOption >>= _) = _
    rw [chosen]
    rfl

namespace Memory

/-- A database whose default family has this operator. -/
def mergingWorld (operator : Option MergeOperator) : World (merging Wire.codec) :=
  World.opened (openedWith operator)

def tabled : (merging Wire.codec).Tabled := mergingTabled Wire.codec

theorem openedWith_operator (operator : Option MergeOperator) (name : Str) :
    (openedWith operator).operators.lookup name =
      if name = "default".toList then operator else none := by
  change (operator.toList.map ("default".toList, ·)).lookup name = _
  generalize "default".toList = default
  cases operator <;> grind

/-- On counters and without an operator it never matters when operands are merged. -/
theorem counting_admitted {operator : Option MergeOperator}
    (counting : operator = none ∨ operator = some .counter) {calls : List Call}
    {commands : List (Command Str Bytes Bytes)}
    (writes : tabled.commands rustler (mergingWorld operator) calls = commands)
    (made : ∀ name m, .create name m ∈ commands → m = counterMerge) :
    tabled.Admitted rustler (mergingWorld operator) calls fun _ _ _ => True where
  timeless := by
    intro name key
    have here : (tabled.contents (openedWith operator)).operator name =
        operatorOf Wire.codec (if name = "default".toList then operator else none) :=
      congrArg (operatorOf Wire.codec) (openedWith_operator operator name)
    change Timeless ((tabled.contents (openedWith operator)).operator name key) _
    rw [here]
    split
    · rcases counting with rfl | rfl
      · exact .inl fun _ _ => rfl
      · exact .inr (counter_lawful key)
    · exact .inl fun _ _ => rfl
  pending := fun _ _ _ _ => trivial
  commands := by
    intro name key command member
    refine ⟨admitted_true _, ?_⟩
    rintro m rfl
    rw [writes] at member
    rw [made name m member]
    exact .inr (counter_lawful key)

end Memory

/-- The options of a family of counters. -/
def counterOptions : Term :=
  .map [(.atom "merge_operator", .binary (intoBytes "counter_merge_operator".toList))]

theorem counterOptions_decode : decodeOptions counterOptions =
    .ok (("merge_operator", .string "counter_merge_operator".toList) :: defaultOptions) := by
  rw [counterOptions, decodeOptions, List.foldlM_cons]
  have text : OptionKind.string.decode (.binary (intoBytes "counter_merge_operator".toList)) =
      .ok (.string "counter_merge_operator".toList) := by
    rw [OptionKind.decode, Term.decodeString, fromUtf8_intoBytes]
    rfl
  rw [decodeOption_known rfl text]
  rfl

/-- A family of counters is made in a database without an operator. -/
theorem counters_made :
    let made : Memory.MergingStore :=
      ⟨⟨0, [("default".toList, []), (['f'], [])], [['f']], false⟩, [(['f'], .counter)]⟩
    (Memory.mergingWorld none).step Memory.rustler (.createCf (.binary [102]) counterOptions) =
        (.term .ok, (Memory.mergingWorld none).withDb made) ∧
      (Call.createCf (.binary [102]) counterOptions).change Memory.rustler
        (Memory.mergingWorld none).handle.db = some (.createCf ['f'] (some .counter)) := by
  intro made
  apply createCf_makes rfl (by decide) counterOptions_decode
  · rfl
  · rfl

/-- A key of the family is put and incremented. -/
def familyCounter : List Call :=
  [.createCf (.binary [102]) counterOptions,
    .putCf (.binary [102]) (.binary [97]) (.binary [49]),
    .mergeCf (.binary [102]) (.binary [97]) (.binary [50])]

def familyRead : Call := .multiGetCf (.ofList [.tuple [.binary [102], .binary [97]]])

theorem familyCounter_answers :
    answers Memory.rustler (Memory.mergingWorld none) 0 (familyCounter ++ [familyRead]) =
      [⟨0, .createCf (.binary [102]) counterOptions, .term .ok⟩,
        ⟨1, .putCf (.binary [102]) (.binary [97]) (.binary [49]), .term .ok⟩,
        ⟨2, .mergeCf (.binary [102]) (.binary [97]) (.binary [50]), .term .ok⟩] ++
      ⟨3, familyRead, .term (foundAll [.ok (some [51])])⟩ :: [] ∧
    Memory.tabled.commands Memory.rustler (Memory.mergingWorld none) familyCounter =
      [.create ['f'] counterMerge, .put ['f'] [97] [49], .merge ['f'] [97] [50]] := by
  obtain ⟨made, asks⟩ := counters_made
  constructor
  · rw [familyCounter, List.cons_append, answers, made]
    rfl
  · rw [RocksDb.Tabled.commands, familyCounter, journal, made, asks]
    rfl

theorem session_reads_tables_family :
    ∃ t, Reply.term (foundAll [.ok (some [51])]) = .term t ∧ Reads Memory.rustler "default".toList
      ((Memory.tabled.contents (Memory.openedWith none)).run
        [.create ['f'] counterMerge, .put ['f'] [97] [49], .merge ['f'] [97] [50]])
      familyRead t := by
  have offered : AllOffered Memory.rustler (Memory.mergingWorld none)
      [familyCounter ++ [familyRead]] := ⟨calls_offered _ rfl, trivial⟩
  obtain ⟨_, leads⟩ := rounds_come offered 0 []
  obtain ⟨history, commands⟩ := familyCounter_answers
  have admitted := Memory.counting_admitted (.inl rfl) commands (by simp)
  have reads := session_reads_tables Memory.tabled (fun _ _ _ written => written) (fun _ _ => rfl)
    leads history (succeeded_spared leads history rfl) admitted rfl
  rw [← commands]
  exact reads.1 rfl

theorem run_keeps (K : R.Tabled) {J : Contents Str Bytes Bytes → Prop} {calls : List Call}
    {w : World R} {tables : Contents Str Bytes Bytes} (start : J tables)
    (kept : ∀ front call back, calls = front ++ call :: back → ∀ tables, J tables →
      J (tables.run (K.commands rt (w.run rt front).2 [call]))) :
    J (tables.run (K.commands rt w calls)) := by
  induction calls generalizing w tables with
  | nil => exact start
  | cons call calls ih =>
    rw [commands_cons, Contents.run, List.foldl_append]
    apply ih (kept [] call calls rfl tables start)
    intro front other back same
    exact kept (call :: front) other back (congrArg (call :: ·) same)

/-- What every acknowledged call keeps as a whole holds of the tables behind every read, so that
nobody sees a batch half done: a batch may break it on the way and restore it at its end. -/
theorem session_reads_whole (K : R.Tabled) (inOrder : R.BatchInOrder) (eachGet : R.MultiGetEach)
    {policy : Nat → Locks.Policy Resource} {w : World R} {n : Nat} {s : NifSession R}
    (leads : Leads (nifs rt R) Offered policy (.opened w) n s)
    {before after : List (Answer Reply Call)} {a : Answer Reply Call}
    (history : s.history = before ++ a :: after)
    (spared : w.SparedRun rt (before.map Answer.call)) {P : Str → Bytes → Bytes → Prop}
    (admitted : K.Admitted rt w (before.map Answer.call) P)
    {J : Contents Str Bytes Bytes → Prop} (start : J (K.contents w.handle.db))
    (kept : ∀ front call back, before.map Answer.call = front ++ call :: back → ∀ tables, J tables →
      J (tables.run (K.commands rt (w.run rt front).2 [call])))
    (gets : a.call.gets = true) (succeeds : a.reply.failed = false) :
    ∃ t tables, a.reply = .term t ∧ J tables ∧ Reads rt (K.name none) tables a.call t := by
  have reply := linearized_at leads history
  rw [reply] at succeeds ⊢
  obtain ⟨t, returned, reads⟩ := step_reads_tables K eachGet gets succeeds
  rw [run_contents K inOrder spared admitted] at reads
  exact ⟨t, _, returned, run_keeps K start kept, reads⟩

/-- Two keys that are only written together, and a read of both. -/
def pairBatch : Call :=
  .writeBatch (.ofList [.tuple [.atom "put", .binary [97], .binary [49]],
    .tuple [.atom "put", .binary [98], .binary [49]]])

def pairRead : Call := .multiGet (.ofList [.binary [97], .binary [98]])

/-- The read arrives before the batch is through. -/
theorem session_reads_whole_pair : ∃ (t : Term) (tables : Contents Str Bytes Bytes),
    Reply.term (foundAll [.ok (some [49]), .ok (some [49])]) = .term t ∧
      tables.value "default".toList [97] = tables.value "default".toList [98] ∧
      Reads Memory.rustler "default".toList tables pairRead t := by
  have offered : AllOffered Memory.rustler (Memory.mergingWorld none) [[pairBatch, pairRead]] :=
    ⟨calls_offered _ rfl, trivial⟩
  obtain ⟨_, leads⟩ := rounds_come offered 0 []
  have history : answers Memory.rustler (Memory.mergingWorld none) 0 [pairBatch, pairRead] =
      [⟨0, pairBatch, .term (.tuple [.ok, .integer 2])⟩] ++
      ⟨1, pairRead, .term (foundAll [.ok (some [49]), .ok (some [49])])⟩ :: [] := by
    rfl
  have commands : Memory.tabled.commands Memory.rustler (Memory.mergingWorld none) [pairBatch] =
      [.put "default".toList [97] [49], .put "default".toList [98] [49]] := by
    rfl
  refine session_reads_whole Memory.tabled (fun _ _ _ written => written) (fun _ _ => rfl) leads
    history (succeeded_spared leads history rfl)
    (Memory.counting_admitted (.inl rfl) commands (by simp)) rfl ?_ rfl rfl
  intro front call back same tables _
  cases front with
  | nil =>
    cases same
    rfl
  | cons first front => simp at same

end ExRocket
