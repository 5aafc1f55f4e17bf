import ExRocket.Merge.Lawful
import ExRocket.Nif.Enumerate
import ExRocket.Nif.Setters
import ExRocket.Nif.Tables

/-! The store in memory with the merge operators of its families. It merges at once, so it is
itself the tables that it stands for. -/
namespace ExRocket.Memory

open Regroup Relation Rust Tables

structure MergingStore where
  store : Store
  operators : List (Str × MergeOperator)

def operatorOf (c : Eetf) : Option MergeOperator → Bytes → Operator Bytes
  | some .counter => counterMerge
  | some .erlang => erlangOperator c
  | some .bitset => bitsetOperator
  | none => fun _ _ _ => none

def MergingStore.operator (c : Eetf) (s : MergingStore) (name : Str) : Bytes → Operator Bytes :=
  operatorOf c (s.operators.lookup name)

def MergingStore.withStore (s : MergingStore) (result : Except Str Store) :
    Except Str MergingStore :=
  result.map fun store => { s with store := store }

/-- The operator of a family, or that of its options. -/
def chosenOperator (given : List Setting) : Option MergeOperator :=
  (given.filterMap Setting.setter).findSome? fun
    | .mergeOperator operator => some operator
    | _ => none

def mergeInto (c : Eetf) (s : MergingStore) (cf : Option Str) (key operand : Bytes) :
    Except Str Store :=
  if s.store.stopped then .error endBeforeStart
  else
    match s.operator c (familyName cf) key ((entries s.store cf).lookup key) [operand] with
    | some value => writeInto s.store cf (insertKey key value)
    | none => .error "Could not perform merge.".toList

def issueMerging (c : Eetf) (s : MergingStore) : WriteOp Str → Except Str MergingStore
  | .merge cf key operand => s.withStore (mergeInto c s cf key operand)
  | op => s.withStore (issue s.store op)

def createMerging (s : MergingStore) (name : Str) (operator : Option MergeOperator) :
    Except Str MergingStore :=
  (createCf s.store name).map fun store =>
    ⟨store, s.operators.filter (fun entry => entry.1 != name) ++ operator.toList.map (name, ·)⟩

def dropMerging (s : MergingStore) (name : Str) : Except Str MergingStore :=
  (dropCf s.store name).map fun store =>
    ⟨store, s.operators.filter fun entry => entry.1 != name⟩

theorem map_ok {α β : Type} {f : α → β} {result : Except Str α} {b : β}
    (maps : result.map f = .ok b) : ∃ a, result = .ok a ∧ f a = b := by
  cases result with
  | ok a =>
    cases maps
    exact ⟨a, rfl, rfl⟩
  | error e => cases maps

theorem withStore_ok {s s' : MergingStore} {result : Except Str Store}
    (writes : s.withStore result = .ok s') :
    result = .ok s'.store ∧ s'.operators = s.operators := by
  obtain ⟨store, written, rfl⟩ := map_ok writes
  exact ⟨written, rfl⟩

theorem mergeInto_ok {c : Eetf} {s : MergingStore} {cf : Option Str} {key operand : Bytes}
    {store : Store} (merges : mergeInto c s cf key operand = .ok store) :
    ∃ value, s.operator c (familyName cf) key ((entries s.store cf).lookup key) [operand] =
        some value ∧ writeInto s.store cf (insertKey key value) = .ok store := by
  unfold mergeInto at merges
  split at merges
  · cases merges
  · split at merges
    · exact ⟨_, ‹_›, merges⟩
    · cases merges

theorem issueMerging_merges {c : Eetf} {s : MergingStore} {cf : Option Str}
    {key operand value : Bytes} {store : Store} (running : s.store.stopped = false)
    (merges : s.operator c (familyName cf) key ((entries s.store cf).lookup key) [operand] =
      some value) (written : writeInto s.store cf (insertKey key value) = .ok store) :
    issueMerging c s (.merge cf key operand) = .ok { s with store := store } := by
  have into : mergeInto c s cf key operand = .ok store := by
    simp [mergeInto, running, merges, written]
  simp only [issueMerging, into, MergingStore.withStore, Except.map]

/-- A write edits the entries of its family, or puts there what a merge comes to. -/
theorem issueMerging_written {c : Eetf} {s s' : MergingStore} {op : WriteOp Str}
    (issued : issueMerging c s op = .ok s') :
    ∃ change, writeInto s.store op.family change = .ok s'.store ∧ s'.operators = s.operators ∧
      (edit op = some change ∨ ∃ cf key operand value, op = .merge cf key operand ∧
        s.operator c (familyName cf) key ((entries s.store cf).lookup key) [operand] =
          some value ∧ change = insertKey key value) := by
  cases op with
  | merge cf key operand =>
    obtain ⟨writes, same⟩ := withStore_ok issued
    obtain ⟨value, merges, written⟩ := mergeInto_ok writes
    exact ⟨_, written, same, .inr ⟨cf, key, operand, value, rfl, merges, rfl⟩⟩
  | _ =>
    obtain ⟨writes, same⟩ := withStore_ok issued
    obtain ⟨change, edits, written⟩ := issue_written writes
    exact ⟨change, written, same, .inl edits⟩

theorem issueMerging_families {c : Eetf} (s : MergingStore) (op : WriteOp Str)
    (s' : MergingStore) (issued : issueMerging c s op = .ok s') :
    cfHandle s'.store = cfHandle s.store := by
  obtain ⟨_, written, _⟩ := issueMerging_written issued
  exact writeInto_families written

def merging (c : Eetf) : RocksDb where
  Store := MergingStore
  Cf := Str
  Opts := Option MergeOperator
  Snap := Store
  Iter := Entries
  Engine := Nat
  cfHandle := fun s => cfHandle s.store
  get := fun s => get s.store
  multiGet := fun s => rocksDb.multiGet s.store
  keyMayExist := fun s => rocksDb.keyMayExist s.store
  issue := issueMerging c
  write := fun s ops => ops.foldlM (issueMerging c) s
  options := fun given => .ok (chosenOperator given)
  createCf := createMerging
  dropCf := dropMerging
  refused := fun s change => { s with store := refused s.store change }
  iterator := fun s => rocksDb.iterator s.store
  prefixIterator := fun s => rocksDb.prefixIterator s.store
  next := rocksDb.next
  snapshot := MergingStore.store
  snapGet := get
  snapMultiGet := rocksDb.snapMultiGet
  snapIterator := rocksDb.snapIterator
  latestSequenceNumber := fun s => s.store.sequence
  path := fun s => rocksDb.path s.store
  checkpointNew := fun s => rocksDb.checkpointNew s.store
  createCheckpoint := fun s => rocksDb.createCheckpoint s.store
  backupEngine := rocksDb.backupEngine
  createNewBackup := fun engine s => rocksDb.createNewBackup engine s.store
  getBackupInfo := rocksDb.getBackupInfo
  issue_families := issueMerging_families
  refusedIssue_families := fun _ _ => rfl
  refusedWrite_families := fun _ _ => rfl

/-- A database that was opened with this operator. -/
def openedWith (operator : Option MergeOperator) : MergingStore :=
  ⟨empty, operator.toList.map ("default".toList, ·)⟩

theorem lookup_insertKey (key value : Bytes) (all : Entries) (k : Bytes) :
    (insertKey key value all).lookup k = if key = k then some value else all.lookup k := by
  induction all with
  | nil => grind [insertKey]
  | cons entry rest ih =>
    obtain ⟨k', v⟩ := entry
    by_cases same : key = k'
    · rw [insertKey, if_pos same]
      grind
    · rw [insertKey, if_neg same]
      split <;> grind

theorem lookup_filter {α β : Type} [BEq α] [LawfulBEq α] (keep : α → Bool) (all : List (α × β))
    (k : α) :
    (all.filter fun entry => keep entry.1).lookup k = if keep k then all.lookup k else none := by
  induction all with
  | nil => simp
  | cons entry rest ih => grind

theorem lookup_update (families : List (Str × Entries)) (name other : Str)
    (change : Entries → Entries) :
    (families.map fun family =>
      if family.1 = name then (family.1, change family.2) else family).lookup other =
      if name = other then (families.lookup other).map change else families.lookup other := by
  induction families with
  | nil => simp
  | cons family families ih => grind

theorem cfHandle_same {s : Store} {name cf : Str} (known : cfHandle s name = some cf) :
    cf = name := by
  unfold cfHandle at known
  split at known
  · cases known
    rfl
  · cases known

/-- The tables of the store. Nothing is pending, for everything is merged at once. -/
def view (c : Eetf) : View MergingStore Str Bytes Bytes where
  names := fun s => {name | (cfHandle s.store name).isSome}
  operator := MergingStore.operator c
  pending := fun s name key => ⟨(entries s.store (some name)).lookup key, []⟩

/-- The entries of the families after a write. -/
theorem entries_written {s s' : Store} {cf : Option Str} {change : Entries → Entries}
    (writes : writeInto s cf change = .ok s') (name : Str) :
    entries s' (some name) = if familyName cf = name then change (entries s cf)
      else entries s (some name) := by
  obtain ⟨there, rfl⟩ := writeInto_ok writes
  have looked := lookup_update s.families (familyName cf) name change
  have entries_ : entries (update s cf change) (some name) =
      (if familyName cf = name then (s.families.lookup name).map change
        else s.families.lookup name).getD [] := congrArg (Option.getD · []) looked
  rw [entries_]
  by_cases same : familyName cf = name
  · subst same
    obtain ⟨all, found⟩ := Option.isSome_iff_exists.mp there
    simp [entries, found]
  · rw [if_neg same, if_neg same]
    rfl

theorem written_applies {c : Eetf} {s s' : MergingStore} {cf : Option Str}
    {change : Entries → Entries} (writes : writeInto s.store cf change = .ok s'.store)
    (name : Str) (key : Bytes) {write : Write Bytes}
    (acts : familyName cf = name → (⟨(change (entries s.store cf)).lookup key, []⟩ :
      Pending Bytes) = write.apply ⟨(entries s.store cf).lookup key, []⟩)
    (other : familyName cf ≠ name → write = .keep) :
    (view c).pending s' name key = write.apply ((view c).pending s name key) := by
  simp only [view, entries_written writes]
  by_cases same : familyName cf = name
  · rw [if_pos same, acts same]
    subst same
    rfl
  · rw [if_neg same, other same]
    rfl

theorem edit_acts {op : WriteOp Str} {change : Entries → Entries} (edits : edit op = some change)
    (all : Entries) (key : Bytes) :
    (⟨(change all).lookup key, []⟩ : Pending Bytes) =
      ((op.command familyName).onKey (familyName op.family) key).apply ⟨all.lookup key, []⟩ := by
  cases op with
  | put cf k value =>
    cases edits
    rw [lookup_insertKey]
    by_cases here : k = key <;>
      simp [WriteOp.command, WriteOp.family, Command.onKey, Write.apply, here]
  | delete cf k =>
    cases edits
    rw [lookup_filter fun other => other != k]
    by_cases here : k = key
    · simp [WriteOp.command, WriteOp.family, Command.onKey, Write.apply, here]
    · simp [WriteOp.command, WriteOp.family, Command.onKey, Write.apply, here, Ne.symm here]
  | deleteRange cf first last =>
    cases edits
    rw [lookup_filter fun other => keyLt other first || !keyLt other last]
    by_cases here : first ≤ key ∧ key < last <;>
      simp [WriteOp.command, WriteOp.family, Command.onKey, Write.apply, here, keyLt_eq]
  | merge => cases edits

theorem command_elsewhere {op : WriteOp Str} {name : Str} (other : familyName op.family ≠ name)
    (key : Bytes) : ((op.command familyName).onKey name key : Write Bytes) = .keep := by
  cases op <;> simp_all [WriteOp.family, WriteOp.command, Command.onKey]

theorem issueMerging_keeps {c : Eetf} {s s' : MergingStore} {op : WriteOp Str}
    (issued : issueMerging c s op = .ok s') : (view c).Keeps (op.command familyName) s s' := by
  obtain ⟨change, written, operators, kind⟩ := issueMerging_written issued
  have same : (view c).operator s' = (view c).operator s := by
    funext name
    simp only [view, MergingStore.operator, operators]
  constructor
  · have families := writeInto_families written
    cases op <;> simp only [view, WriteOp.command, Command.onNames, families]
  · intro name
    rw [same]
    cases op <;> rfl
  · intro name key
    rcases kind with edits | ⟨cf, k, operand, value, rfl, merges, rfl⟩
    · rw [← written_applies written name key]
      · rintro rfl
        exact edit_acts edits _ key
      · exact fun other => command_elsewhere other key
    · by_cases here : familyName cf = name ∧ k = key
      · obtain ⟨rfl, rfl⟩ := here
        have entry := lookup_insertKey k value (entries s.store cf) k
        rw [if_pos rfl] at entry
        simp only [view, WriteOp.command, Command.onKey, and_self, if_true, entries_written written,
          WriteOp.family, entry]
        rw [MergingStore.operator, operators]
        exact .single (.fullMerge _ [operand] [] value (by simp) merges)
      · rw [← written_applies written name key]
        · intro same
          have other : k ≠ key := fun eq => here ⟨same, eq⟩
          rw [lookup_insertKey, if_neg other]
          simp [WriteOp.command, Command.onKey, Write.apply, other]
        · exact fun other => command_elsewhere other key

theorem lookup_append_empty (families : List (Str × Entries)) (name other : Str) :
    ((families ++ [(name, [])]).lookup other).getD [] = (families.lookup other).getD [] := by
  rw [List.lookup_append]
  cases families.lookup other with
  | some all => rfl
  | none =>
    simp only [Option.none_or, List.lookup_cons, List.lookup_nil]
    cases other == name <;> rfl

/-- The family was not there, and had no entries. -/
theorem createCf_ok {s s' : Store} {name : Str} (creates : createCf s name = .ok s') :
    entries s (some name) = [] ∧ s'.handles = s.handles ++ [name] ∧
      ∀ cf, entries s' cf = entries s cf := by
  unfold createCf at creates
  split at creates
  · cases creates
  · rename_i unknown
    cases creates
    refine ⟨?_, rfl, fun cf => lookup_append_empty s.families name (familyName cf)⟩
    have absent := Option.not_isSome_iff_eq_none.mp unknown
    simp [entries, familyName, absent]

theorem dropCf_ok {s s' : Store} {name : Str} (drops : dropCf s name = .ok s') :
    s'.handles = s.handles.filter (· != name) ∧
      s'.families = s.families.filter fun family => family.1 != name := by
  unfold dropCf at drops
  split at drops
  · cases drops
  · split at drops
    · cases drops
    · cases drops
      exact ⟨rfl, rfl⟩

theorem createMerging_keeps {c : Eetf} {s s' : MergingStore} {name : Str}
    {operator : Option MergeOperator} (creates : createMerging s name operator = .ok s') :
    (view c).Keeps (.create name (operatorOf c operator)) s s' := by
  obtain ⟨store, created, rfl⟩ := map_ok creates
  obtain ⟨empty, handles, kept⟩ := createCf_ok created
  constructor
  · ext other
    simp only [view, Command.onNames, Set.mem_ofPred_eq, Set.mem_insert_iff, cfHandle, handles]
    by_cases same : other = name <;> simp [same]
  · intro other
    have looked : (s.operators.filter (fun entry => entry.1 != name) ++
        operator.toList.map (name, ·)).lookup other =
        if name = other then operator else s.operators.lookup other := by
      rw [List.lookup_append, lookup_filter fun other => other != name]
      by_cases same : name = other
      · subst same
        cases operator <;> simp
      · have apart : (other == name) = false := beq_false_of_ne (Ne.symm same)
        cases operator <;> simp [same, Ne.symm same, apart, List.lookup_cons]
    simp only [view, MergingStore.operator, looked, Command.onOperator]
    split <;> rfl
  · intro other key
    simp only [view, kept, Command.onKey]
    split
    · rename_i same
      subst same
      rw [empty]
      exact .refl
    · exact .refl

theorem dropMerging_keeps {c : Eetf} {s s' : MergingStore} {name : Str}
    (drops : dropMerging s name = .ok s') : (view c).Keeps (.drop name) s s' := by
  obtain ⟨store, dropped, rfl⟩ := map_ok drops
  obtain ⟨handles, families⟩ := dropCf_ok dropped
  constructor
  · ext other
    simp only [view, Command.onNames, Set.mem_ofPred_eq, Set.mem_sdiff, Set.mem_singleton_iff,
      cfHandle, handles]
    by_cases same : other = name <;> simp [same]
  · intro other
    simp only [view, MergingStore.operator, lookup_filter fun other => other != name,
      Command.onOperator]
    by_cases same : name = other
    · subst same
      simp [operatorOf]
    · simp [same, Ne.symm same]
  · intro other key
    simp only [view, entries, familyName, Option.getD_some, families,
      lookup_filter fun other => other != name, Command.onKey]
    by_cases same : name = other
    · subst same
      simp [Write.apply]
      exact .refl
    · simp [Write.apply, same, Ne.symm same]
      exact .refl

def mergingTabled (c : Eetf) : (merging c).Tabled where
  name := familyName
  named := by
    intro s n cf known
    rw [cfHandle_same known]
    rfl
  operator := operatorOf c
  view := view c
  known := fun _ _ => Iff.rfl
  issues := fun _ _ _ _ issued => issueMerging_keeps issued
  creates := fun _ _ _ _ creates => createMerging_keeps creates
  drops := fun _ _ _ drops => dropMerging_keeps drops
  get := by
    intro s cf key v _ reads
    cases reads
    rfl
  mayExist := by
    intro s cf key _ absent
    have none : ((entries s.store cf).lookup key).isNone := Option.isSome_eq_false_iff.mp absent
    exact Option.isNone_iff_eq_none.mp none

end ExRocket.Memory
