import ExRocket.Nif.SharedIterators
import ExRocket.Nif.SnapshotSessions
import ExRocket.Nif.TableSessions

/-! Iterators on tables. An iterator that is opened in a session walks the table as it was, each
key with its value and no other; the invariant behind it is the one that a store keeps its
entries in the order of their keys. -/
namespace ExRocket

open Regroup Rust Tables Walk
open TwoPhase (Answer Leads)

variable {R : RocksDb} {rt : Rustler}

/-- The cursors of a sound store walk its tables, and what the store does leaves it sound. -/
structure RocksDb.Tabled.Listed (K : R.Tabled) (C : R.Cursors) where
  Sound : R.Store → Prop
  issues : ∀ s op s', Sound s → KnownCf s op.family → R.issue s op = .ok s' → Sound s'
  creates : ∀ s n opts s', Sound s → R.createCf s n opts = .ok s' → Sound s'
  drops : ∀ s n s', Sound s → R.dropCf s n = .ok s' → Sound s'
  sorted : ∀ s cf, Sound s → KnownCf s cf → Sorted (C.entries s cf)
  lists : ∀ s cf, Sound s → KnownCf s cf → ∀ key v,
    (key, v) ∈ C.entries s cf ↔ (K.contents s).value (K.name cf) key = some v

section Sound

variable {K : R.Tabled} {C : R.Cursors} (L : K.Listed C) {db db' : R.Store}
include L

theorem written_sound {ops : List (WriteOp R.Cf)} (written : Written R ops db db')
    (sound : L.Sound db) : L.Sound db' := by
  induction written with
  | nothing => exact sound
  | record known issued _ ih => exact ih (L.issues _ _ _ sound known issued)

theorem change_sound (inOrder : R.BatchInOrder) {change : Change R.Cf R.Opts}
    (known : change.Known db) (answers : R.answer db change = .ok db') (sound : L.Sound db) :
    L.Sound db' := by
  cases change with
  | issue op => exact L.issues db op db' sound known answers
  | write ops => exact written_sound L (issues_written known (inOrder db ops db' answers)) sound
  | createCf name opts => exact L.creates db name opts db' sound answers
  | dropCf name => exact L.drops db name db' sound answers

theorem step_sound (inOrder : R.BatchInOrder) {w : World R} {call : Call}
    (spared : call.Spared rt w.handle) (sound : L.Sound w.handle.db) :
    L.Sound (w.step rt call).2.handle.db := by
  rcases step_makes spared with ⟨_, same⟩ | ⟨change, _, asks, answers⟩
  · rw [same]
    exact sound
  · exact change_sound L inOrder (change_known asks) answers sound

theorem run_sound (inOrder : R.BatchInOrder) {w : World R} {calls : List Call}
    (spared : w.SparedRun rt calls) (sound : L.Sound w.handle.db) :
    L.Sound (w.run rt calls).2.handle.db := by
  induction calls generalizing w with
  | nil => exact sound
  | cons call calls ih => exact ih spared.2 (step_sound L inOrder spared.1 sound)

end Sound

theorem run_listed (K : R.Tabled) {C : R.Cursors} (L : K.Listed C) (inOrder : R.BatchInOrder)
    {w : World R} (sound : L.Sound w.handle.db) {calls : List Call}
    (spared : w.SparedRun rt calls) {P : Str → Bytes → Bytes → Prop}
    (admitted : K.Admitted rt w calls P) {cf : Option R.Cf}
    (known : KnownCf (w.run rt calls).2.handle.db cf) :
    Sorted (C.entries (w.run rt calls).2.handle.db cf) ∧
      ∀ key v, (key, v) ∈ C.entries (w.run rt calls).2.handle.db cf ↔
        ((K.contents w.handle.db).run (K.commands rt w calls)).value (K.name cf) key =
          some v := by
  have here : L.Sound (w.run rt calls).2.handle.db := run_sound L inOrder spared sound
  rw [← run_contents K inOrder spared admitted]
  exact ⟨L.sorted _ cf here known, L.lists _ cf here known⟩

/-- The calls that open an iterator on a table, and the bounds they set. -/
inductive OpensTable (default : Str) (mode : Term) :
    Call → Str → Option Bytes → Option Bytes → Prop where
  | iterator : OpensTable default mode (.iterator mode) default none none
  | iteratorCf {cfName : Term} {name : Str} : cfName.decodeString = .ok name →
      OpensTable default mode (.iteratorCf cfName mode) name none none
  | iteratorRange {first last readOpts : Term} {lower upper : Option Bytes} : Bound first lower →
      Bound last upper →
      OpensTable default mode (.iteratorRange mode first last readOpts) default lower upper

theorem iteratorRange_succeeds {w : World R} {mode first last readOpts : Term}
    (succeeds : (w.step rt (.iteratorRange mode first last readOpts)).1.failed = false) :
    w.handle.poisoned = false ∧ ∃ opts, decodeReadOptions readOpts = .ok opts := by
  rw [World.step, World.iteratorRange] at succeeds
  obtain ⟨opts, decodes, ranged⟩ := decoded_succeeds succeeds
  obtain ⟨_, _, body⟩ := decoded_succeeds ranged
  exact ⟨(read_succeeds body).1, opts, decodes⟩

theorem opensTable_step (K : R.Tabled) (C : R.Cursors) {w : World R} {mode : Term} {call : Call}
    {name : Str} {lower upper : Option Bytes} {position : IteratorMode}
    (opens : OpensTable (K.name none) mode call name lower upper)
    (decodes : iteratorMode mode = .ok position)
    (sorted : ∀ cf, KnownCf w.handle.db cf → Sorted (C.entries w.handle.db cf))
    (succeeds : (w.step rt call).1.failed = false) :
    ∃ cf iter, KnownCf w.handle.db cf ∧ K.name cf = name ∧
      w.step rt call = w.release (.iterator iter) ∧
      C.Shows iter (place lower upper (C.entries w.handle.db cf) (seekOf position)) := by
  cases opens with
  | iterator =>
    have known := knownCf_none w.handle.db
    obtain ⟨iter, step, shows_⟩ := World.opens_step rt C (.iterator (read_succeeds succeeds).1)
      decodes (sorted none known)
    exact ⟨none, iter, known, rfl, step, shows_⟩
  | iteratorCf named =>
    obtain ⟨name', named', found⟩ := family_known rfl succeeds
    obtain ⟨cf, here⟩ := Option.isSome_iff_exists.mp found
    obtain ⟨_, _, body⟩ := decoded_succeeds succeeds
    rw [named] at named'
    cases named'
    have known := knownCf_some here
    obtain ⟨iter, step, shows_⟩ := World.opens_step rt C
      (.iteratorCf _ _ cf (read_succeeds body).1 named here) decodes (sorted (some cf) known)
    exact ⟨some cf, iter, known, K.named here, step, shows_⟩
  | iteratorRange begins ends =>
    have known := knownCf_none w.handle.db
    obtain ⟨healthy, opts, options⟩ := iteratorRange_succeeds succeeds
    exact ⟨none, _, known, rfl, World.iteratorRange_step healthy options begins ends decodes,
      C.iterator _ none position ⟨lower, upper⟩ (sorted none known)⟩

/-- An iterator that is opened in a session deals out a table as the calls that were acknowledged
before it have left it: each key once and in order, with its value, between the bounds and from
where the mode starts. Nothing that is written later shows. -/
theorem session_walks_tables (K : R.Tabled) (C : R.Cursors) (L : K.Listed C)
    (inOrder : R.BatchInOrder) {policy : Nat → Locks.Policy Resource} {w : World R} {n : Nat}
    {s : NifSession R} (leads : Leads (nifs rt R) Offered policy (.opened w) n s)
    {before later : List (Answer Reply Call)} {a : Answer Reply Call}
    (history : s.history = before ++ a :: later) (sound : L.Sound w.handle.db)
    (spared : w.SparedRun rt (before.map Answer.call)) {P : Str → Bytes → Bytes → Prop}
    (admitted : K.Admitted rt w (before.map Answer.call) P)
    {mode : Term} {position : IteratorMode} {name : Str} {lower upper : Option Bytes}
    (opens : OpensTable (K.name none) mode a.call name lower upper)
    (decodes : iteratorMode mode = .ok position) (succeeds : a.reply.failed = false) :
    let tables := (K.contents w.handle.db).run (K.commands rt w (before.map Answer.call))
    ∃ id entries, a.reply = .term (.tuple [.ok, .resource (.iterator id)]) ∧
      Sorted entries ∧ (∀ key v, (key, v) ∈ entries ↔ tables.value name key = some v) ∧
      (dealt id later).map Answer.reply =
        repliesOf (selected lower upper entries (seekOf position)) (dealt id later).length := by
  intro tables
  have listed := fun cf (known : KnownCf (w.run rt (before.map Answer.call)).2.handle.db cf) =>
    run_listed K L inOrder sound spared admitted known
  rw [linearized_at leads history] at succeeds
  obtain ⟨cf, iter, known, rfl, step, shows_⟩ := opensTable_step K C opens decodes
    (fun cf known => (listed cf known).1) succeeds
  obtain ⟨sorted, lists⟩ := listed cf known
  obtain ⟨id, reply, deals⟩ := placed_deals C leads history step shows_ sorted
  exact ⟨id, _, reply, sorted, lists, deals⟩

/-- An iterator on a snapshot is made only while its mutex is not poisoned. -/
theorem snapshotIterator_step (C : R.Cursors) {w : World R} {id : Nat} {snap : R.Snap}
    (here : w.snapAt id = some snap) {mode : Term} {position : IteratorMode}
    (decodes : iteratorMode mode = .ok position) (sorted : Sorted (C.snapEntries snap none))
    (succeeds : (w.step rt (.snapshotIterator (snapTerm id) mode)).1.failed = false) :
    ∃ iter, w.step rt (.snapshotIterator (snapTerm id) mode) = w.release (.iterator iter) ∧
      C.Shows iter (place none none (C.snapEntries snap none) (seekOf position)) := by
  obtain ⟨⟨snap', poisoned⟩, found, rfl⟩ := Option.map_eq_some_iff.mp here
  cases poisoned with
  | false => exact World.opens_step rt C (.snapshotIterator id snap' found) decodes sorted
  | true =>
    have locks : w.step rt (.snapshotIterator (snapTerm id) mode) = _ :=
      World.onSnapshot_iterator w id mode
    rw [locks, World.lockSnapshot] at succeeds
    simp only [found] at succeeds
    cases succeeds

/-- A snapshot is the tables as the calls that were acknowledged before it left them. Whatever is
written after it, and however the store compacts, a key that is found in it has the value that it
had there, and an iterator on it deals out the entries that there were. -/
theorem session_snapshot_tables (K : R.Tabled) (C : R.Cursors) (L : K.Listed C)
    (frozen : R.Frozen) (freezes : ∀ db, C.snapEntries (R.snapshot db) none = C.entries db none)
    (inOrder : R.BatchInOrder) {policy : Nat → Locks.Policy Resource} {w : World R} {n : Nat}
    {s : NifSession R} (leads : Leads (nifs rt R) Offered policy (.opened w) n s)
    {before between later : List (Answer Reply Call)} {a g : Answer Reply Call}
    (history : s.history = before ++ a :: (between ++ g :: later)) (takes : a.call = .snapshot)
    (taken : a.reply.failed = false) (sound : L.Sound w.handle.db)
    (spared : w.SparedRun rt (before.map Answer.call)) {P : Str → Bytes → Bytes → Prop}
    (admitted : K.Admitted rt w (before.map Answer.call) P) :
    let tables := (K.contents w.handle.db).run (K.commands rt w (before.map Answer.call))
    ∃ id, a.reply = .term (.tuple [.ok, snapTerm id]) ∧
      (∀ key v, g.call = .snapshotGet (snapTerm id) key → g.reply = .term (found (.ok v)) →
        v = tables.value (K.name none) (key.lazyBinary rt)) ∧
      ∀ mode position, g.call = .snapshotIterator (snapTerm id) mode →
        iteratorMode mode = .ok position → g.reply.failed = false →
        ∃ it entries, g.reply = .term (.tuple [.ok, .resource (.iterator it)]) ∧
          Sorted entries ∧
          (∀ key v, (key, v) ∈ entries ↔ tables.value (K.name none) key = some v) ∧
          (dealt it later).map Answer.reply =
            repliesOf (selected none none entries (seekOf position)) (dealt it later).length := by
  intro tables
  obtain ⟨id, reply, there⟩ := snapshot_reaches leads history takes taken
  have split : s.history = (before ++ a :: between) ++ g :: later := by simp [history]
  have second := linearized_at leads split
  refine ⟨id, reply, ?_, ?_⟩
  · intro key v reads replies
    rw [reads] at second
    have calm : g.reply ≠ .panicked := by
      rw [replies]
      exact fun impossible => (by cases impossible)
    rw [second] at calm
    rw [snapshotGet_reads there calm, frozen.get, replies] at second
    injection second with same
    have value := K.get _ none _ v (knownCf_none _) (found_injective same.symm)
    rw [value]
    exact congrArg (fun c => Contents.value c (K.name none) (key.lazyBinary rt))
      (run_contents K inOrder spared admitted)
  · intro mode position opens decodes succeeds
    rw [second, opens] at succeeds
    obtain ⟨sorted, lists⟩ :=
      run_listed K L inOrder sound spared admitted (knownCf_none _)
    obtain ⟨iter, step, shows_⟩ :=
      snapshotIterator_step C there decodes (by rw [freezes]; exact sorted) succeeds
    rw [← opens] at step
    rw [freezes] at shows_
    obtain ⟨it, replies, deals⟩ := placed_deals C leads split step shows_ sorted
    exact ⟨it, _, replies, sorted, lists, deals⟩

namespace Memory

theorem mem_insertKey {key value : Bytes} {all : Entries} {entry : Bytes × Bytes}
    (member : entry ∈ insertKey key value all) : entry.1 = key ∨ entry ∈ all := by
  induction all with
  | nil => grind [insertKey]
  | cons first rest ih => grind [insertKey]

theorem insertKey_sorted {all : Entries} (sorted : Sorted all) (key value : Bytes) :
    Sorted (insertKey key value all) := by
  induction all with
  | nil => simp [insertKey, Sorted]
  | cons first rest ih =>
    obtain ⟨k, v⟩ := first
    obtain ⟨ahead, tail⟩ := List.pairwise_cons.mp sorted
    rw [insertKey, keyLt_eq]
    split
    · rename_i same
      subst same
      exact List.pairwise_cons.mpr ⟨ahead, tail⟩
    · rename_i other
      split
      · rename_i below
        have below : key < k := of_decide_eq_true below
        refine List.pairwise_cons.mpr ⟨fun entry member => ?_, sorted⟩
        rcases List.mem_cons.mp member with rfl | later
        · exact below
        · exact Std.lt_trans below (ahead entry later)
      · rename_i above
        have above : k < key :=
          Std.lt_of_le_of_ne (Std.not_lt.mp fun below => above (decide_eq_true below))
            (Ne.symm other)
        refine List.pairwise_cons.mpr ⟨fun entry member => ?_, ih tail⟩
        rcases mem_insertKey member with same | later
        · rw [same]
          exact above
        · exact ahead entry later

theorem mem_sorted_iff {all : Entries} (sorted : Sorted all) (key v : Bytes) :
    (key, v) ∈ all ↔ all.lookup key = some v := by
  induction all with
  | nil => simp
  | cons first rest ih =>
    obtain ⟨k, v'⟩ := first
    obtain ⟨ahead, tail⟩ := List.pairwise_cons.mp sorted
    rw [List.lookup_cons, List.mem_cons, ih tail]
    by_cases same : key = k
    · subst same
      have absent : rest.lookup key ≠ some v := fun later =>
        Std.lt_irrefl (ahead (key, v) ((ih tail).mpr later))
      simp [absent, eq_comm]
    · have apart : (key == k) = false := by simp [same]
      rw [apart]
      simp [same]

/-- Every family is in the order of its keys. -/
def Ordered (s : Store) : Prop := ∀ family ∈ s.families, Sorted family.2

theorem entries_sorted {s : Store} (ordered : Ordered s) (cf : Option Str) :
    Sorted (entries s cf) := by
  unfold entries
  cases found : s.families.lookup (familyName cf) with
  | none => exact List.Pairwise.nil
  | some all =>
    obtain ⟨_, _, split, _⟩ := List.lookup_eq_some_iff.mp found
    exact ordered (familyName cf, all) (by simp [split])

theorem writeInto_ordered {s s' : Store} {cf : Option Str} {change : Entries → Entries}
    (writes : writeInto s cf change = .ok s') (keeps : ∀ all, Sorted all → Sorted (change all))
    (ordered : Ordered s) : Ordered s' := by
  rw [(writeInto_ok writes).2]
  intro family member
  obtain ⟨old, member', rfl⟩ := List.mem_map.mp member
  split
  · exact keeps _ (ordered old member')
  · exact ordered old member'

theorem issueMerging_ordered {c : Eetf} {s s' : MergingStore} {op : WriteOp Str}
    (ordered : Ordered s.store) (issued : issueMerging c s op = .ok s') : Ordered s'.store := by
  obtain ⟨change, written, _, kind⟩ := issueMerging_written issued
  refine writeInto_ordered written ?_ ordered
  rcases kind with edits | ⟨_, key, _, value, _, _, rfl⟩
  · cases op with
    | put cf key value =>
      cases edits
      exact fun _ sorted => insertKey_sorted sorted key value
    | delete | deleteRange =>
      cases edits
      exact fun _ sorted => List.Pairwise.filter _ sorted
    | merge => cases edits
  · exact fun _ sorted => insertKey_sorted sorted key value

theorem createCf_ordered {s s' : Store} {name : Str} (ordered : Ordered s)
    (creates : createCf s name = .ok s') : Ordered s' := by
  unfold createCf at creates
  split at creates
  · cases creates
  · cases creates
    intro family member
    rcases List.mem_append.mp member with old | new
    · exact ordered family old
    · rw [List.mem_singleton.mp new]
      exact List.Pairwise.nil

theorem empty_ordered : Ordered empty := by
  intro family member
  rw [List.mem_singleton.mp member]
  exact List.Pairwise.nil

def mergingCursors (c : Eetf) : (merging c).Cursors where
  entries := fun s => entries s.store
  snapEntries := entries
  Shows := cursors.Shows
  iterator := fun s => cursors.iterator s.store
  snapIterator := cursors.snapIterator
  next := cursors.next

def mergingListed (c : Eetf) : (mergingTabled c).Listed (mergingCursors c) where
  Sound := fun s => Ordered s.store
  issues := fun _ _ _ ordered _ issued => issueMerging_ordered ordered issued
  creates := by
    intro s name operator s' ordered creates
    obtain ⟨store, created, rfl⟩ := map_ok creates
    exact createCf_ordered ordered created
  drops := by
    intro s name s' ordered drops
    obtain ⟨store, dropped, rfl⟩ := map_ok drops
    intro family member
    rw [(dropCf_ok dropped).2] at member
    exact ordered family (List.mem_filter.mp member).1
  sorted := fun _ cf ordered _ => entries_sorted ordered cf
  lists := fun _ cf ordered _ => mem_sorted_iff (entries_sorted ordered cf)

end Memory

/-- A counter in a family is incremented. -/
def walkBefore : List (Answer Reply Call) :=
  [⟨0, .createCf (.binary [102]) counterOptions, .term .ok⟩,
    ⟨1, .putCf (.binary [102]) (.binary [99]) (.binary [53]), .term .ok⟩,
    ⟨2, .mergeCf (.binary [102]) (.binary [97]) (.binary [50]), .term .ok⟩]

def walkOpens : Call := .iteratorCf (.binary [102]) (.tuple [.atom "end"])

/-- The family is written to while the iterator walks. -/
def walkLater : List (Answer Reply Call) :=
  [⟨4, .putCf (.binary [102]) (.binary [97]) (.binary [57]), .term .ok⟩,
    ⟨5, .next (.resource (.iterator 0)), entryReply ([99], [53])⟩,
    ⟨6, .next (.resource (.iterator 0)), entryReply ([97], [50])⟩,
    ⟨7, .next (.resource (.iterator 0)), endReply⟩]

def walkRounds : List (List Call) :=
  [walkBefore.map Answer.call ++ [walkOpens], walkLater.map Answer.call]

theorem walk_offered : AllOffered Memory.rustler (Memory.mergingWorld none) walkRounds := by
  refine ⟨calls_offered _ rfl, ?_, trivial⟩
  have opened : 0 < ((Memory.mergingWorld none).run Memory.rustler
      (walkBefore.map Answer.call ++ [walkOpens])).2.iterators.length := by
    rw [walkBefore, List.map_cons, List.cons_append, World.run_cons, counters_made.1]
    exact Nat.zero_lt_one
  simp only [walkLater, List.map_cons, List.map_nil, List.forall_mem_cons]
  exact ⟨call_offered _ rfl, next_offered opened, next_offered opened, next_offered opened,
    by simp⟩

theorem walk_answers :
    answers Memory.rustler (Memory.mergingWorld none) 0 walkRounds.flatten =
      walkBefore ++
        ⟨3, walkOpens, .term (.tuple [.ok, .resource (.iterator 0)])⟩ :: walkLater ∧
    Memory.tabled.commands Memory.rustler (Memory.mergingWorld none)
        (walkBefore.map Answer.call) =
      [.create ['f'] counterMerge, .put ['f'] [99] [53], .merge ['f'] [97] [50]] := by
  obtain ⟨made, asks⟩ := counters_made
  constructor
  · rw [walkRounds, List.flatten_cons, walkBefore, List.map_cons, List.cons_append,
      List.cons_append, answers, made]
    rfl
  · rw [RocksDb.Tabled.commands, walkBefore, List.map_cons, journal, made, asks]
    rfl

theorem session_walks_tables_counter : ∃ (id : Nat) (entries : List (Bytes × Bytes)),
    Reply.term (.tuple [.ok, .resource (.iterator 0)]) =
      .term (.tuple [.ok, .resource (.iterator id)]) ∧ Sorted entries ∧
    (∀ key v, (key, v) ∈ entries ↔
      ((Memory.tabled.contents (Memory.openedWith none)).run
        [.create ['f'] counterMerge, .put ['f'] [99] [53],
          .merge ['f'] [97] [50]]).value ['f'] key = some v) ∧
    (dealt id walkLater).map Answer.reply =
      repliesOf (selected none none entries .toLast) (dealt id walkLater).length := by
  obtain ⟨_, leads⟩ := rounds_come walk_offered 0 []
  obtain ⟨history, commands⟩ := walk_answers
  have named : Term.decodeString (.binary [102]) = .ok ['f'] := rfl
  have decodes : iteratorMode (.tuple [.atom "end"]) = .ok .ending := rfl
  have walks := session_walks_tables Memory.tabled (Memory.mergingCursors _)
    (Memory.mergingListed _) (fun _ _ _ written => written) leads history Memory.empty_ordered
    (succeeded_spared leads history rfl) (Memory.counting_admitted (.inl rfl) commands (by simp))
    (.iteratorCf named) decodes rfl
  rw [commands] at walks
  exact walks

/-- A counter is incremented and a snapshot taken. -/
def snapshotOpens : List Call := [.merge (.binary [97]) (.binary [49]), .snapshot]

/-- It is incremented again while the snapshot is opened for a walk. -/
def snapshotWalk : List Call :=
  [.merge (.binary [97]) (.binary [50]), .snapshotIterator (snapTerm 0) (.tuple [.atom "start"])]

def snapshotLater : List (Answer Reply Call) :=
  [⟨4, .next (.resource (.iterator 0)), entryReply ([97], [49])⟩,
    ⟨5, .next (.resource (.iterator 0)), endReply⟩]

theorem snapshotIterator_offered {w : World R} {id : Nat} (taken : id < w.snapshots.length)
    (mode : Term) : Offered w (.snapshotIterator (snapTerm id) mode) := by
  refine ⟨?_, by simp⟩
  intro g member
  rw [List.mem_singleton.mp member]
  exact World.snapshot_mem_resources.mpr taken

theorem session_snapshot_tables_counter : ∃ (it : Nat) (entries : List (Bytes × Bytes)),
    Reply.term (.tuple [.ok, .resource (.iterator 0)]) =
      .term (.tuple [.ok, .resource (.iterator it)]) ∧ Sorted entries ∧
    (∀ key v, (key, v) ∈ entries ↔
      ((Memory.tabled.contents (Memory.openedWith (some .counter))).run
        [.merge "default".toList [97] [49]]).value "default".toList key = some v) ∧
    (dealt it snapshotLater).map Answer.reply =
      repliesOf (selected none none entries .toFirst) (dealt it snapshotLater).length := by
  have offered : AllOffered Memory.rustler (Memory.mergingWorld (some .counter))
      [snapshotOpens, snapshotWalk, snapshotLater.map Answer.call] := by
    refine ⟨calls_offered _ rfl, ?_, ?_, trivial⟩
    · simp only [snapshotWalk, List.forall_mem_cons]
      exact ⟨call_offered _ rfl, snapshotIterator_offered Nat.zero_lt_one _, by simp⟩
    · simp only [snapshotLater, List.map_cons, List.map_nil, List.forall_mem_cons]
      exact ⟨next_offered Nat.zero_lt_one, next_offered Nat.zero_lt_one, by simp⟩
  obtain ⟨_, leads⟩ := rounds_come offered 0 []
  have history : answers Memory.rustler (Memory.mergingWorld (some .counter)) 0
      (snapshotOpens ++ snapshotWalk ++ snapshotLater.map Answer.call) =
      [⟨0, .merge (.binary [97]) (.binary [49]), .term .ok⟩] ++
      ⟨1, .snapshot, .term (.tuple [.ok, snapTerm 0])⟩ ::
        ([⟨2, .merge (.binary [97]) (.binary [50]), .term .ok⟩] ++
          ⟨3, .snapshotIterator (snapTerm 0) (.tuple [.atom "start"]),
            .term (.tuple [.ok, .resource (.iterator 0)])⟩ :: snapshotLater) := by
    rfl
  have commands : Memory.tabled.commands Memory.rustler (Memory.mergingWorld (some .counter))
      [.merge (.binary [97]) (.binary [49])] = [.merge "default".toList [97] [49]] := by
    rfl
  obtain ⟨id, reply, _, walks⟩ := session_snapshot_tables Memory.tabled
    (Memory.mergingCursors _) (Memory.mergingListed _)
    ⟨fun _ _ _ => rfl, fun _ _ => rfl, fun _ _ _ _ => rfl⟩ (fun _ => rfl)
    (fun _ _ _ written => written) leads history rfl rfl Memory.empty_ordered
    (succeeded_spared leads history rfl) (Memory.counting_admitted (.inr rfl) commands (by simp))
  cases reply
  exact walks _ _ rfl rfl rfl

end ExRocket
