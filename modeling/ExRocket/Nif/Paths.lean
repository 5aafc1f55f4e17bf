import ExRocket.Nif.Keys
import ExRocket.Nif.Memory
import ExRocket.Nif.Poison

/-! The native functions that are given paths: they open, destroy and repair databases and keep
their backups. What stands on the disks is a parameter, as the store is. A backup has a number
of 32 bits, and is restored by a signed one. -/
namespace ExRocket

open Rust

/-- A call that fails yields its message, and leaves the disks in whatever state it has come to. -/
structure Disks (R : RocksDb) where
  Disk : Type
  openDb : Disk → R.Opts → Str → Except Str R.Store × Disk
  openForReadOnly : Disk → R.Opts → Str → (errorIfLogFileExist : Bool) → Except Str R.Store × Disk
  openCf : Disk → R.Opts → Str → List Str → Except Str R.Store × Disk
  openCfForReadOnly : Disk → R.Opts → Str → List Str → (errorIfLogFileExist : Bool) →
    Except Str R.Store × Disk
  destroy : Disk → R.Opts → Str → Except Str Unit × Disk
  repair : Disk → R.Opts → Str → Except Str Unit × Disk
  listCf : Disk → R.Opts → Str → Except Str (List Str)
  /-- The environment, the options for the path and the engine; any of the three may fail. -/
  backupEngine : Disk → Str → Option R.Engine
  purgeOldBackups : R.Engine → Nat → Except Str Unit × R.Engine
  /-- What an engine has written to its path. -/
  keep : Disk → Str → R.Engine → Disk
  restoreFromLatestBackup : Disk → R.Engine → Str → Except Str Unit × Disk
  restoreFromBackup : Disk → R.Engine → Str → Nat → Except Str Unit × Disk

/-- RocksDB's `kLatestBackupIDMarker`, which is no number of a backup: to ask for it is to ask for
the latest. -/
def latestBackupIdMarker : Nat := 4294967294

def Disks.LatestMarked {R : RocksDb} (D : Disks R) : Prop :=
  ∀ disk engine path, D.restoreFromBackup disk engine path latestBackupIdMarker =
    D.restoreFromLatestBackup disk engine path

def Term.decodeI32 : Term → NifResult Int
  | .integer n => if -2 ^ 31 ≤ n ∧ n < 2 ^ 31 then return n else throw .badarg
  | _ => throw .badarg

def Term.decodeUsize : Term → NifResult Nat
  | .integer n => if 0 ≤ n ∧ n < 2 ^ 64 then return n.toNat else throw .badarg
  | _ => throw .badarg

/-- `backup_id as u32` -/
def asU32 (n : Int) : Nat := (n % 2 ^ 32).toNat

/-- What the store is asked for: the latest backup, or one by its number. -/
def chosenBackup (backupId : Int) : Option Nat :=
  match backupId with
  | -1 => none
  | n => some (asU32 n)

variable (rt : Rustler) {R : RocksDb} {D : Disks R}

def backups (engine : R.Engine) : Term :=
  .tuple [.ok, .ofList ((R.getBackupInfo engine).map fun i => .tuple [.atom "backup",
    .integer i.backupId, .integer i.timestamp, .integer i.size, .integer i.numFiles])]

/-- The disks, and the databases that have been opened. -/
structure Node (D : Disks R) where
  disk : D.Disk
  databases : List (World R)

namespace Node

variable (node : Node D)

def answer (node : Node D) : NifResult (Term × Node D) → Reply × Node D
  | .ok (t, next) => (.term t, next)
  | .error stop => (stop.reply, node)

def opened : Except Str R.Store × D.Disk → Term × Node D
  | (.ok db, disk) => (.tuple [.ok, .resource .db], ⟨disk, node.databases ++ [World.opened db]⟩)
  | (.error e, disk) => (.error e, { node with disk })

def wrote : Except Str Unit × D.Disk → Term × Node D
  | (.ok _, disk) => (.ok, { node with disk })
  | (.error e, disk) => (.error e, { node with disk })

/-- The functions that convert a map of options before they do anything else. -/
def withOptions (path opts : Term) (body : Str → R.Opts → NifResult (Term × Node D)) :
    Reply × Node D :=
  node.answer do
    let path ← path.decodeString
    let opts ← decodeOptions opts
    let dbOpts ← R.options (← settings opts optionKinds)
    body path dbOpts

def openDb (path opts : Term) : Reply × Node D :=
  node.withOptions path opts fun path dbOpts => return node.opened (D.openDb node.disk dbOpts path)

def openForReadOnly (path opts : Term) : Reply × Node D :=
  node.withOptions path opts fun path dbOpts =>
    let errorIfLogFileExist := false
    return node.opened (D.openForReadOnly node.disk dbOpts path errorIfLogFileExist)

/-- The names of the families are decoded after the options have been converted. -/
def openCf (path cfNames opts : Term) : Reply × Node D :=
  node.withOptions path opts fun path dbOpts => do
    let cfs ← decodeKeys rt Term.decodeString cfNames
    return node.opened (D.openCf node.disk dbOpts path cfs)

def openCfForReadOnly (path cfNames opts : Term) : Reply × Node D :=
  node.withOptions path opts fun path dbOpts => do
    let cfs ← decodeKeys rt Term.decodeString cfNames
    let errorIfLogFileExist := false
    return node.opened (D.openCfForReadOnly node.disk dbOpts path cfs errorIfLogFileExist)

def destroy (path opts : Term) : Reply × Node D :=
  node.withOptions path opts fun path dbOpts => return node.wrote (D.destroy node.disk dbOpts path)

def repair (path opts : Term) : Reply × Node D :=
  node.withOptions path opts fun path dbOpts => return node.wrote (D.repair node.disk dbOpts path)

def listCf (path opts : Term) : Reply × Node D :=
  node.withOptions path opts fun path dbOpts =>
    match D.listCf node.disk dbOpts path with
    | .ok cfs => return (.tuple [.ok, .ofList (cfs.map fun name => .binary (intoBytes name))], node)
    | .error e => return (.error e, node)

/-- A backup of one of the databases, under its read guard. One that fails is no backup. -/
def createBackup (w : World R) (path : Term) : Reply × Node D :=
  node.answer do
    let path ← path.decodeString
    if w.handle.poisoned then throw .panic
    else
      let backupEngine ← unwrap (D.backupEngine node.disk path)
      match R.createNewBackup backupEngine w.handle.db with
      | .ok backupEngine =>
        return (backups backupEngine, { node with disk := D.keep node.disk path backupEngine })
      | .error e => return (.error e, node)

def getBackupInfo (path : Term) : Reply × Node D :=
  node.answer do
    let path ← path.decodeString
    let backupEngine ← unwrap (D.backupEngine node.disk path)
    return (backups backupEngine, node)

def purgeOldBackups (path numBackupsToKeep : Term) : Reply × Node D :=
  node.answer do
    let path ← path.decodeString
    let numBackupsToKeep ← numBackupsToKeep.decodeUsize
    let backupEngine ← unwrap (D.backupEngine node.disk path)
    match D.purgeOldBackups backupEngine numBackupsToKeep with
    | (.ok _, backupEngine) =>
      return (backups backupEngine, { node with disk := D.keep node.disk path backupEngine })
    | (.error e, backupEngine) =>
      return (.error e, { node with disk := D.keep node.disk path backupEngine })

def restoreFromBackup (backupPath restorePath backupId : Term) : Reply × Node D :=
  node.answer do
    let backupPath ← backupPath.decodeString
    let restorePath ← restorePath.decodeString
    let backupId ← backupId.decodeI32
    let backupEngine ← unwrap (D.backupEngine node.disk backupPath)
    let res := match chosenBackup backupId with
      | none => D.restoreFromLatestBackup node.disk backupEngine restorePath
      | some id => D.restoreFromBackup node.disk backupEngine restorePath id
    return node.wrote res

/-- `restore_from_backup(backup_path, restore_path)` of the Elixir module. -/
def restoreLatest (backupPath restorePath : Term) : Reply × Node D :=
  node.restoreFromBackup backupPath restorePath (.integer (-1))

variable {node}

/-- Options that do not parse make each of these functions panic, and nothing has been opened,
destroyed, repaired or read. -/
theorem withOptions_panics {path opts : Term} {name : Str} {given : RockerOptions}
    {body : Str → R.Opts → NifResult (Term × Node D)} (named : path.decodeString = .ok name)
    (decodes : decodeOptions opts = .ok given) (unparsed : ¬ OptionsParse given) :
    node.withOptions path opts body = (.panicked, node) := by
  have panics := settings_panic_iff.mpr unparsed
  simp only [withOptions, named, decodes, bind, Except.bind, panics]
  rfl

theorem restore_chosen {backupPath restorePath : Term} {path target : Str} {engine : R.Engine}
    (decodes : backupPath.decodeString = .ok path)
    (decodes' : restorePath.decodeString = .ok target)
    (opened : D.backupEngine node.disk path = some engine) {n : Int}
    (fits : -2 ^ 31 ≤ n ∧ n < 2 ^ 31) :
    node.restoreFromBackup backupPath restorePath (.integer n) =
      node.answer (.ok (node.wrote ((chosenBackup n).elim
        (D.restoreFromLatestBackup node.disk engine target)
        (D.restoreFromBackup node.disk engine target)))) := by
  simp only [restoreFromBackup, decodes, decodes', Term.decodeI32, if_pos fits, bind, Except.bind,
    pure, Except.pure, opened, unwrap]
  cases chosenBackup n <;> rfl

theorem restore_refused {backupPath restorePath t : Term} {path target : Str}
    (decodes : backupPath.decodeString = .ok path)
    (decodes' : restorePath.decodeString = .ok target)
    (refuses : t.decodeI32 = .error .badarg) :
    node.restoreFromBackup backupPath restorePath t = (.badarg, node) := by
  simp only [restoreFromBackup, decodes, decodes', refuses]
  rfl

end Node

theorem asU32_nonneg {n : Int} (nonneg : 0 ≤ n) (fits : n < 2 ^ 31) : asU32 n = n.toNat := by
  rw [asU32, Int.emod_eq_of_lt nonneg (by omega)]

theorem asU32_neg {n : Int} (neg : n < 0) (fits : -2 ^ 31 ≤ n) : asU32 n = (n + 2 ^ 32).toNat := by
  rw [asU32]
  omega

theorem chosenBackup_none_iff {n : Int} : chosenBackup n = none ↔ n = -1 := by
  unfold chosenBackup
  split
  · simp
  · rename_i other
    simpa using other

theorem chosenBackup_ne {n : Int} (other : n ≠ -1) : chosenBackup n = some (asU32 n) := by
  unfold chosenBackup
  split
  · exact absurd rfl other
  · rfl

theorem decodeI32_cases (t : Term) :
    t.decodeI32 = .error .badarg ∨ ∃ n, t = .integer n ∧ -2 ^ 31 ≤ n ∧ n < 2 ^ 31 := by
  unfold Term.decodeI32
  split
  · rename_i n
    split
    · rename_i fits
      exact .inr ⟨n, rfl, fits⟩
    · exact .inl rfl
  · exact .inl rfl

section Restore

variable {node : Node D} {backupPath restorePath : Term} {path target : Str} {engine : R.Engine}

/-- An id that is a number below 2^31 restores the backup with this number, minus one and minus two
the latest, and any other negative id the backup whose number is greater by 2^32. Numbers from
2^31 on are refused, so that the last two of 32 bits are those that no id asks for. -/
theorem restore_reaches (marked : D.LatestMarked) (decodes : backupPath.decodeString = .ok path)
    (decodes' : restorePath.decodeString = .ok target)
    (opened : D.backupEngine node.disk path = some engine) :
    (∀ i : Nat, i < 2 ^ 31 → node.restoreFromBackup backupPath restorePath (.integer i) =
      node.answer (.ok (node.wrote (D.restoreFromBackup node.disk engine target i)))) ∧
    (∀ i : Nat, 2 ^ 31 ≤ i → i < 2 ^ 32 - 2 →
      node.restoreFromBackup backupPath restorePath (.integer i) = (.badarg, node) ∧
      node.restoreFromBackup backupPath restorePath (.integer (i - 2 ^ 32)) =
        node.answer (.ok (node.wrote (D.restoreFromBackup node.disk engine target i)))) ∧
    node.restoreLatest backupPath restorePath =
      node.answer (.ok (node.wrote (D.restoreFromLatestBackup node.disk engine target))) ∧
    node.restoreFromBackup backupPath restorePath (.integer (-2)) =
      node.restoreLatest backupPath restorePath ∧
    ∀ t, node.restoreFromBackup backupPath restorePath t = (.badarg, node) ∨
      node.restoreFromBackup backupPath restorePath t = node.restoreLatest backupPath restorePath ∨
      ∃ i : Nat, i < 2 ^ 32 - 2 ∧ node.restoreFromBackup backupPath restorePath t =
        node.answer (.ok (node.wrote (D.restoreFromBackup node.disk engine target i))) := by
  have number : ∀ n : Int, -2 ^ 31 ≤ n → n < 2 ^ 31 → n ≠ -1 →
      node.restoreFromBackup backupPath restorePath (.integer n) =
        node.answer (.ok (node.wrote (D.restoreFromBackup node.disk engine target (asU32 n)))) := by
    intro n above below other
    rw [Node.restore_chosen decodes decodes' opened ⟨above, below⟩, chosenBackup_ne other]
    rfl
  have latest : node.restoreLatest backupPath restorePath =
      node.answer (.ok (node.wrote (D.restoreFromLatestBackup node.disk engine target))) := by
    rw [Node.restoreLatest, Node.restore_chosen decodes decodes' opened (by omega),
      chosenBackup_none_iff.mpr rfl]
    rfl
  have marker : node.restoreFromBackup backupPath restorePath (.integer (-2)) =
      node.restoreLatest backupPath restorePath := by
    rw [number (-2) (by omega) (by omega) (by omega), latest, ← marked]
    rfl
  refine ⟨?_, ?_, latest, marker, ?_⟩
  · intro i small
    rw [number i (by omega) (by omega) (by omega), asU32_nonneg (by omega) (by omega)]
    rfl
  · intro i above below
    constructor
    · apply Node.restore_refused decodes decodes'
      have refused : ¬ (-2 ^ 31 ≤ (i : Int) ∧ (i : Int) < 2 ^ 31) := by omega
      rw [Term.decodeI32, if_neg refused]
      rfl
    · rw [number _ (by omega) (by omega) (by omega), asU32_neg (by omega) (by omega)]
      have same : ((i : Int) - 2 ^ 32 + 2 ^ 32).toNat = i := by omega
      rw [same]
  · intro t
    rcases decodeI32_cases t with refuses | ⟨n, rfl, above, below⟩
    · exact .inl (Node.restore_refused decodes decodes' refuses)
    · by_cases first : n = -1
      · subst first
        exact .inr (.inl rfl)
      · by_cases second : n = -2
        · subst second
          exact .inr (.inl marker)
        · refine .inr (.inr ⟨asU32 n, ?_, number n above below first⟩)
          rw [asU32]
          omega

end Restore

section Replies

variable {node : Node D} {w : World R}

theorem answer_term {body : NifResult (Term × Node D)} {t : Term}
    (replies : (node.answer body).1 = .term t) :
    ∃ next, body = .ok (t, next) ∧ (node.answer body).2 = next := by
  rcases body with stop | ⟨t', next⟩
  · cases stop <;> cases replies
  · cases replies
    exact ⟨next, rfl, rfl⟩

/-- Under the guard the backup is the one that the function on a world makes. -/
theorem createBackup_reply (path : Term)
    (same : ∀ path, D.backupEngine node.disk path = R.backupEngine path) :
    (node.createBackup w path).1 = (w.createBackup path).1 := by
  simp only [Node.createBackup, World.createBackup, same, World.decoded, World.read]
  cases path.decodeString with
  | error stop => rfl
  | ok path =>
    simp only [bind, Except.bind]
    split
    · rfl
    · cases R.backupEngine path with
      | none => rfl
      | some engine =>
        simp only [unwrap, pure, Except.pure]
        cases R.createNewBackup engine w.handle.db <;> rfl

theorem error_ne_ok (e : Str) (t : Term) : Term.error e ≠ .tuple [.ok, t] := by
  simp [Term.error, Term.ok]

end Replies

section Families

variable {node : Node D}

theorem withOptions_term {path opts : Term} {body : Str → R.Opts → NifResult (Term × Node D)}
    {t : Term} (replies : (node.withOptions path opts body).1 = .term t) :
    ∃ name dbOpts next, path.decodeString = .ok name ∧
      (do R.options (← settings (← decodeOptions opts) optionKinds)) = .ok dbOpts ∧
      body name dbOpts = .ok (t, next) ∧ (node.withOptions path opts body).2 = next ∧
      ∀ body' : Str → R.Opts → NifResult (Term × Node D),
        node.withOptions path opts body' = node.answer (body' name dbOpts) := by
  obtain ⟨next, returns, after⟩ := answer_term replies
  obtain ⟨name, named, rest⟩ := bind_ok returns
  obtain ⟨given, decodes, rest⟩ := bind_ok rest
  obtain ⟨set, sets, rest⟩ := bind_ok rest
  obtain ⟨dbOpts, made, body_⟩ := bind_ok rest
  refine ⟨name, dbOpts, next, named, ?_, body_, after, fun body' => ?_⟩
  · simp only [decodes, sets, bind, Except.bind, made]
  · simp only [Node.withOptions, named, decodes, sets, made, bind, Except.bind]

theorem names_decode (rt : Rustler) (cfs : List Str) :
    decodeKeys rt Term.decodeString (.ofList (cfs.map fun name => .binary (intoBytes name))) =
      .ok cfs := by
  rw [decodeKeys_ofList_ok_iff, List.forall₂_map_left_iff]
  apply List.forall₂_same.mpr
  intro name _
  rw [Term.decodeString, fromUtf8_intoBytes]
  rfl

/-- What list_cf replies opens the database with just the families that it has: given back with
the same path and options, it is read as their names, in their order. Nothing is changed. -/
theorem listed_families_open (rt : Rustler) {path opts cfNames : Term}
    (replies : (node.listCf path opts).1 = .term (.tuple [.ok, cfNames])) :
    (node.listCf path opts).2 = node ∧ ∃ name dbOpts cfs, path.decodeString = .ok name ∧
      (do R.options (← settings (← decodeOptions opts) optionKinds)) = .ok dbOpts ∧
      D.listCf node.disk dbOpts name = .ok cfs ∧
      node.openCf rt path cfNames opts =
        node.answer (.ok (node.opened (D.openCf node.disk dbOpts name cfs))) ∧
      node.openCfForReadOnly rt path cfNames opts =
        node.answer (.ok (node.opened (D.openCfForReadOnly node.disk dbOpts name cfs false))) := by
  obtain ⟨name, dbOpts, next, decodes, converts, body, after, same⟩ := withOptions_term replies
  split at body
  · rename_i cfs listed
    obtain ⟨terms, stays⟩ := Prod.mk.inj (Except.ok.inj body)
    have named : cfNames = .ofList (cfs.map fun name => .binary (intoBytes name)) := by
      injection terms with tuple
      injection tuple with _ tuple
      injection tuple with last
      exact last.symm
    subst named
    refine ⟨after.trans stays.symm, name, dbOpts, cfs, decodes, converts, listed, ?_, ?_⟩
    · rw [Node.openCf, same, names_decode]
      rfl
    · rw [Node.openCfForReadOnly, same, names_decode]
      rfl
  · exact absurd (Prod.mk.inj (Except.ok.inj body)).1 (error_ne_ok _ _)

end Families

namespace Memory

/-- Disks that hold empty databases, and of each path the number of its backups. -/
def disks : Disks rocksDb where
  Disk := Str → Nat
  openDb := fun disk _ _ => (.ok empty, disk)
  openForReadOnly := fun disk _ _ _ => (.ok empty, disk)
  openCf := fun disk _ _ _ => (.ok empty, disk)
  openCfForReadOnly := fun disk _ _ _ _ => (.ok empty, disk)
  destroy := fun disk _ path => (.ok (), fun other => if other = path then 0 else disk other)
  repair := fun disk _ _ => (.ok (), disk)
  listCf := fun _ _ _ => .ok ["default".toList]
  backupEngine := fun disk path => some (disk path)
  purgeOldBackups := fun (engine : Nat) count =>
    if engine ≤ count then (.ok (), engine) else (.error "Not implemented".toList, engine)
  keep := fun disk path engine other => if other = path then engine else disk other
  restoreFromLatestBackup := fun disk (engine : Nat) _ =>
    (if 0 < engine then .ok () else .error "NotFound".toList, disk)
  restoreFromBackup := fun disk (engine : Nat) _ id =>
    (if 0 < engine ∧ (0 < id ∧ id ≤ engine ∨ id = latestBackupIdMarker) then .ok ()
      else .error "NotFound".toList, disk)

theorem disks_marked : disks.LatestMarked := by
  intro disk (engine : Nat) path
  have same : 0 < engine ∧ (0 < latestBackupIdMarker ∧ latestBackupIdMarker ≤ engine ∨
      latestBackupIdMarker = latestBackupIdMarker) ↔ 0 < engine := by simp
  exact congrArg (·, disk) (if_congr same rfl rfl)

def node : Node disks := ⟨fun _ => 1, []⟩

end Memory

theorem restore_reaches_first :
    Memory.node.restoreFromBackup (.binary [97]) (.binary [98]) (.integer 1) =
      Memory.node.answer (.ok (Memory.node.wrote
        (Memory.disks.restoreFromBackup Memory.node.disk (1 : Nat) ['b'] 1))) := by
  have decodes : (Term.binary [97]).decodeString = .ok ['a'] := rfl
  exact (restore_reaches Memory.disks_marked decodes rfl rfl).1 1 (by omega)

theorem listed_families_open_default :
    (Memory.node.listCf (.binary [97]) (.map [])).2 = Memory.node ∧ ∃ name dbOpts cfs,
      (Term.binary [97]).decodeString = .ok name ∧
      (do Memory.rocksDb.options (← settings (← decodeOptions (.map [])) optionKinds)) =
        .ok dbOpts ∧
      Memory.disks.listCf Memory.node.disk dbOpts name = .ok cfs ∧
      Memory.node.openCf Memory.rustler (.binary [97])
          (.ofList [.binary [100, 101, 102, 97, 117, 108, 116]]) (.map []) =
        Memory.node.answer (.ok (Memory.node.opened
          (Memory.disks.openCf Memory.node.disk dbOpts name cfs))) ∧
      Memory.node.openCfForReadOnly Memory.rustler (.binary [97])
          (.ofList [.binary [100, 101, 102, 97, 117, 108, 116]]) (.map []) =
        Memory.node.answer (.ok (Memory.node.opened
          (Memory.disks.openCfForReadOnly Memory.node.disk dbOpts name cfs false))) :=
  listed_families_open Memory.rustler rfl

end ExRocket
