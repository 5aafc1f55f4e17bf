import ExRocket.Nif.World

/-! A store in memory: families of entries in key order, no merge operator, and a batch
that is its records one after the other. It is one instance of the store parameter, and like the
real store it does not recover from a refused range or the refused drop of a family. -/
namespace ExRocket.Memory

open Rust

abbrev Entries := List (Bytes × Bytes)

structure Store where
  sequence : Nat
  families : List (Str × Entries)
  /-- The families that the binding knows. -/
  handles : List Str
  /-- No more writes are taken. -/
  stopped : Bool
  deriving DecidableEq

def keyLt : Bytes → Bytes → Bool
  | [], [] => false
  | [], _ :: _ => true
  | _ :: _, [] => false
  | a :: as, b :: bs => decide (a < b) || (decide (a = b) && keyLt as bs)

def insertKey (key value : Bytes) : Entries → Entries
  | [] => [(key, value)]
  | (k, v) :: rest =>
    if key = k then (key, value) :: rest
    else if keyLt key k then (key, value) :: (k, v) :: rest
    else (k, v) :: insertKey key value rest

def familyName (cf : Option Str) : Str := cf.getD "default".toList

def cfHandle (s : Store) (name : Str) : Option Str :=
  if s.handles.contains name then some name else none

def entries (s : Store) (cf : Option Str) : Entries :=
  (s.families.lookup (familyName cf)).getD []

def update (s : Store) (cf : Option Str) (change : Entries → Entries) : Store :=
  { s with
    sequence := s.sequence + 1
    families := s.families.map fun family =>
      if family.1 = familyName cf then (family.1, change family.2) else family }

def writeInto (s : Store) (cf : Option Str) (change : Entries → Entries) : Except Str Store :=
  if (s.families.lookup (familyName cf)).isSome then .ok (update s cf change)
  else .error "Column family not found".toList

def inverted : WriteOp Str → Bool
  | .deleteRange _ first last => keyLt last first
  | _ => false

def endBeforeStart : Str := "Invalid argument: end key comes before start key".toList

/-- What a write does to the entries of its family. -/
def edit : WriteOp Str → Option (Entries → Entries)
  | .put _ key value => some (insertKey key value)
  | .delete _ key => some (List.filter fun entry => entry.1 != key)
  | .merge _ _ _ => none
  | .deleteRange _ first last =>
    some (List.filter fun entry => keyLt entry.1 first || !keyLt entry.1 last)

def issue (s : Store) (op : WriteOp Str) : Except Str Store :=
  if s.stopped || inverted op then .error endBeforeStart
  else
    match edit op with
    | some change => writeInto s op.family change
    | none => .error "Provide a merge_operator when opening DB".toList

def createCf (s : Store) (name : Str) : Except Str Store :=
  if (s.families.lookup name).isSome then .error "Column family already exists".toList
  else .ok { s with families := s.families ++ [(name, [])], handles := s.handles ++ [name] }

def dropCf (s : Store) (name : Str) : Except Str Store :=
  if (cfHandle s name).isNone then .error ("Invalid column family: ".toList ++ name)
  else if name = "default".toList then .error "Can't drop default column family".toList
  else .ok { s with
    families := s.families.filter fun family => family.1 != name
    handles := s.handles.filter (· != name) }

def stopIf (s : Store) (ops : List (WriteOp Str)) : Store :=
  { s with stopped := s.stopped || ops.any inverted }

/-- The binding forgets a family before it asks RocksDB to drop it. -/
def refused {Opts : Type} (s : Store) : Change Str Opts → Store
  | .issue op => stopIf s [op]
  | .write ops => stopIf s ops
  | .createCf _ _ => s
  | .dropCf name => { s with handles := s.handles.filter (· != name) }

def get (s : Store) (cf : Option Str) (key : Bytes) : Except Str (Option Bytes) :=
  .ok ((entries s cf).lookup key)

def select (all : Entries) (mode : IteratorMode) (opts : ReadOptions) : Entries :=
  let inside := all.filter fun entry =>
    opts.lower.all (fun lower => !keyLt entry.1 lower) &&
      opts.upper.all (fun upper => keyLt entry.1 upper)
  match mode with
  | .start => inside
  | .ending => inside.reverse
  | .forward key => inside.filter fun entry => !keyLt entry.1 key
  | .reverse key => (inside.filter fun entry => !keyLt key entry.1).reverse

theorem writeInto_ok {s s' : Store} {cf : Option Str} {change : Entries → Entries}
    (writes : writeInto s cf change = .ok s') :
    (s.families.lookup (familyName cf)).isSome ∧ s' = update s cf change := by
  unfold writeInto at writes
  split at writes
  · rename_i there
    cases writes
    exact ⟨there, rfl⟩
  · cases writes

theorem writeInto_families {s s' : Store} {cf : Option Str} {change : Entries → Entries}
    (writes : writeInto s cf change = .ok s') : cfHandle s' = cfHandle s := by
  rw [(writeInto_ok writes).2]
  rfl

theorem issue_written {s s' : Store} {op : WriteOp Str} (issued : issue s op = .ok s') :
    ∃ change, edit op = some change ∧ writeInto s op.family change = .ok s' := by
  unfold issue at issued
  split at issued
  · cases issued
  · split at issued
    · exact ⟨_, ‹_›, issued⟩
    · cases issued

theorem issue_families (s : Store) (op : WriteOp Str) (s' : Store)
    (issued : issue s op = .ok s') : cfHandle s' = cfHandle s := by
  obtain ⟨_, _, written⟩ := issue_written issued
  exact writeInto_families written

def rocksDb : RocksDb where
  Store := Store
  Cf := Str
  Opts := List Setting
  Snap := Store
  Iter := Entries
  Engine := Nat
  cfHandle := cfHandle
  get := get
  multiGet := fun s keys => keys.map fun (cf, key) => get s cf key
  keyMayExist := fun s cf key => ((entries s cf).lookup key).isSome
  issue := issue
  write := fun s ops => ops.foldlM issue s
  options := fun given => .ok given
  createCf := fun s name _ => createCf s name
  dropCf := dropCf
  refused := refused
  iterator := fun s cf mode opts => select (entries s cf) mode opts
  prefixIterator := fun s cf start => select (entries s cf) (.forward start) .default
  next := fun
    | [] => (none, [])
    | entry :: rest => (some (.ok entry), rest)
  snapshot := fun s => s
  snapGet := get
  snapMultiGet := fun s keys => keys.map fun (cf, key) => get s cf key
  snapIterator := fun s cf mode => select (entries s cf) mode .default
  latestSequenceNumber := Store.sequence
  path := fun _ => "memory".toList
  checkpointNew := fun _ => some ()
  createCheckpoint := fun _ _ => .ok ()
  backupEngine := fun _ => some 0
  createNewBackup := fun engine _ => .ok (engine + 1)
  getBackupInfo := fun engine => (List.range engine).map fun i => ⟨i + 1, 0, 0, 0⟩
  issue_families := issue_families
  refusedIssue_families := fun _ _ => rfl
  refusedWrite_families := fun _ _ => rfl

theorem batchInOrder : rocksDb.BatchInOrder := fun _ _ _ written => written

theorem stopIf_single {s : Store} {ops : List (WriteOp Str)}
    (single : ∀ op ∈ ops, op.ranged = false) : stopIf s ops = s := by
  have none : ops.any inverted = false := by
    rw [List.any_eq_false]
    intro op member
    cases op with
    | deleteRange => exact absurd (single _ member) (by simp [WriteOp.ranged])
    | _ => simp [inverted]
  simp [stopIf, none]

theorem batchWhole : rocksDb.BatchWhole := fun _ _ _ single _ => stopIf_single single

/-- What open/2 opens: its binding knows no family by name, not even the default one. -/
def empty : Store := ⟨0, [("default".toList, [])], [], false⟩

def world : World rocksDb := World.opened empty

/-- A key in the default family, and one in a family that was made. -/
def twoFamilies : World rocksDb := World.opened
  ⟨2, [("default".toList, [([97], [49])]), ("x".toList, [([107], [50])])], ["x".toList], false⟩

/- The external form is that of the empty list, the one term it is used for here. -/
def rustler : Rustler where
  toBinary := fun _ => [131, 106]
  improperTail := .error .panic

end ExRocket.Memory
