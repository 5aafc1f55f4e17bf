import ExRocket.Library.Tables
import ExRocket.Nif.Journal
import ExRocket.Nif.Lookup

/-! The handle as named tables. The store piles up merges and compacts its keys whenever it
likes; what a call writes is a list of commands on the tables that the store stands for, and
what a read replies is what these hold. -/
namespace ExRocket

open Regroup Rust Tables

def WriteOp.command {Cf : Type} (name : Option Cf → Str) : WriteOp Cf → Command Str Bytes Bytes
  | .put cf key value => .put (name cf) key value
  | .delete cf key => .delete (name cf) key
  | .merge cf key operand => .merge (name cf) key operand
  | .deleteRange cf first last => .clear (name cf) fun key => decide (first ≤ key ∧ key < last)

variable {R : RocksDb}

/-- The change is in families that there are. -/
def Change.Known (db : R.Store) : Change R.Cf R.Opts → Prop
  | .issue op => KnownCf db op.family
  | .write ops => ∀ op ∈ ops, KnownCf db op.family
  | .createCf .. | .dropCf _ => True

/-- A store that keeps its families as tables, under the names of their handles and each with the
merge operator of the options that it was made with. After a change any key may have been
compacted. A read that succeeds finds what the base and the pending operands amount to, and a key
that cannot exist has no value. -/
structure RocksDb.Tabled (R : RocksDb) where
  name : Option R.Cf → Str
  named : ∀ {s n cf}, R.cfHandle s n = some cf → name (some cf) = n
  operator : R.Opts → Bytes → Operator Bytes
  view : View R.Store Str Bytes Bytes
  known : ∀ s n, n ∈ view.names s ↔ (R.cfHandle s n).isSome
  issues : ∀ s op s', KnownCf s op.family → R.issue s op = .ok s' →
    view.Keeps (op.command name) s s'
  creates : ∀ s n opts s', R.createCf s n opts = .ok s' →
    view.Keeps (.create n (operator opts)) s s'
  drops : ∀ s n s', R.dropCf s n = .ok s' → view.Keeps (.drop n) s s'
  get : ∀ s cf key v, KnownCf s cf → R.get s cf key = .ok v →
    v = (view.contents s).value (name cf) key
  mayExist : ∀ s cf key, KnownCf s cf → R.keyMayExist s cf key = false →
    (view.contents s).value (name cf) key = none

variable {rt : Rustler}

theorem inFamily_known {db : R.Store} {cfName : Term} {op : R.Cf → WriteOp R.Cf}
    (family : ∀ cf, (op cf).family = some cf) {change : Change R.Cf R.Opts}
    (asks : inFamily db cfName op = some change) : change.Known db := by
  obtain ⟨name, _, rest⟩ := Option.bind_eq_some_iff.mp asks
  obtain ⟨cf, known, same⟩ := Option.bind_eq_some_iff.mp rest
  cases same
  rw [Change.Known, family]
  exact knownCf_some known

theorem change_known {db : R.Store} {call : Call} {change : Change R.Cf R.Opts}
    (asks : call.change rt db = some change) : change.Known db := by
  cases call with
  | put | delete | merge =>
    cases asks
    exact knownCf_none db
  | deleteRange =>
    cases asks
    exact List.forall_mem_singleton.mpr (knownCf_none db)
  | putCf | deleteCf | mergeCf | deleteRangeCf => exact inFamily_known (fun _ => rfl) asks
  | writeBatch txs =>
    cases records : batchRecords rt db txs [] with
    | error stop =>
      rw [Call.change, records] at asks
      cases asks
    | ok batch =>
      rw [writeBatch_change records] at asks
      split at asks
      · cases asks
        exact fun op member => (batchRecords_plain records (by simp) op member).2
      · cases asks
  | createCf cfName opts =>
    obtain ⟨_, _, rest⟩ := Option.bind_eq_some_iff.mp asks
    obtain ⟨_, _, rest⟩ := Option.bind_eq_some_iff.mp rest
    obtain ⟨_, _, same⟩ := Option.bind_eq_some_iff.mp rest
    cases same
    trivial
  | dropCf =>
    obtain ⟨_, _, same⟩ := Option.bind_eq_some_iff.mp asks
    cases same
    trivial
  | _ => cases asks

namespace RocksDb.Tabled

variable (K : R.Tabled)

/-- The tables that the store stands for. -/
def contents (db : R.Store) : Contents Str Bytes Bytes := K.view.contents db

def commandsOf : Change R.Cf R.Opts → List (Command Str Bytes Bytes)
  | .issue op => [op.command K.name]
  | .write ops => ops.map (WriteOp.command K.name)
  | .createCf name opts => [.create name (K.operator opts)]
  | .dropCf name => [.drop name]

/-- What the calls of a run that report no failure do to the tables. -/
def commands (rt : Rustler) (w : World R) (calls : List Call) : List (Command Str Bytes Bytes) :=
  (journal rt w calls).flatMap K.commandsOf

end RocksDb.Tabled

/-- Records that the store performs one after another, each in a family that there is. -/
inductive Written (R : RocksDb) : List (WriteOp R.Cf) → R.Store → R.Store → Prop where
  | nothing {db : R.Store} : Written R [] db db
  | record {op : WriteOp R.Cf} {ops : List (WriteOp R.Cf)} {db mid db' : R.Store} :
      KnownCf db op.family → R.issue db op = .ok mid → Written R ops mid db' →
      Written R (op :: ops) db db'

theorem issues_written {ops : List (WriteOp R.Cf)} {db db' : R.Store}
    (known : ∀ op ∈ ops, KnownCf db op.family) (issued : ops.foldlM R.issue db = .ok db') :
    Written R ops db db' := by
  induction ops generalizing db with
  | nil =>
    cases issued
    exact .nothing
  | cons op ops ih =>
    obtain ⟨first, rest⟩ := List.forall_mem_cons.mp known
    rw [List.foldlM_cons] at issued
    obtain ⟨mid, here, issued'⟩ := bind_ok issued
    have families := R.issue_families db op mid here
    refine .record first here (ih ?_ issued')
    intro op' member c same
    rw [families]
    exact rest op' member c same

theorem written_performs (K : R.Tabled) {ops : List (WriteOp R.Cf)} {db db' : R.Store}
    (written : Written R ops db db') :
    K.view.Performs (ops.map (WriteOp.command K.name)) db db' := by
  induction written with
  | nothing => exact .nothing
  | record known issued _ ih => exact .command (K.issues _ _ _ known issued) ih

theorem change_performs (K : R.Tabled) (inOrder : R.BatchInOrder) {db db' : R.Store}
    {change : Change R.Cf R.Opts} (known : change.Known db)
    (answers : R.answer db change = .ok db') :
    K.view.Performs (K.commandsOf change) db db' := by
  cases change with
  | issue op => exact .command (K.issues db op db' known answers) .nothing
  | write ops => exact written_performs K (issues_written known (inOrder db ops db' answers))
  | createCf name opts => exact .command (K.creates db name opts db' answers) .nothing
  | dropCf name => exact .command (K.drops db name db' answers) .nothing

theorem step_commands (K : R.Tabled) (inOrder : R.BatchInOrder) {w : World R} {call : Call}
    (spared : call.Spared rt w.handle) :
    K.view.Performs (K.commands rt w [call]) w.handle.db (w.step rt call).2.handle.db := by
  rw [RocksDb.Tabled.commands]
  rcases step_makes spared with ⟨nothing, same⟩ | ⟨change, made, asks, answers⟩
  · rw [nothing, same]
    exact .nothing
  · rw [made, List.flatMap_singleton]
    exact change_performs K inOrder (change_known asks) answers

theorem commands_cons (K : R.Tabled) (w : World R) (call : Call) (calls : List Call) :
    K.commands rt w (call :: calls) =
      K.commands rt w [call] ++ K.commands rt (w.step rt call).2 calls := by
  simp only [RocksDb.Tabled.commands, journal_cons w call calls, List.flatMap_append]

theorem run_commands (K : R.Tabled) (inOrder : R.BatchInOrder) {w : World R} {calls : List Call}
    (spared : w.SparedRun rt calls) :
    K.view.Performs (K.commands rt w calls) w.handle.db (w.run rt calls).2.handle.db := by
  induction calls generalizing w with
  | nil => exact .nothing
  | cons call calls ih =>
    rw [commands_cons]
    exact performs_append (step_commands K inOrder spared.1) (ih spared.2)

/-- What is pending at first and what a run writes is of these kinds, and it matters under no
operator when operands of them are merged. -/
structure RocksDb.Tabled.Admitted (K : R.Tabled) (rt : Rustler) (w : World R) (calls : List Call)
    (P : Str → Bytes → Bytes → Prop) : Prop where
  timeless : ∀ name key, Timeless ((K.contents w.handle.db).operator name key) (P name key)
  pending : ∀ name key, (K.view.pending w.handle.db name key).Admits (P name key)
  commands : ∀ name key, ∀ command ∈ K.commands rt w calls,
    command.Admitted name key (P name key)

theorem run_contents (K : R.Tabled) (inOrder : R.BatchInOrder) {w : World R} {calls : List Call}
    (spared : w.SparedRun rt calls) {P : Str → Bytes → Bytes → Prop}
    (admitted : K.Admitted rt w calls P) :
    K.contents (w.run rt calls).2.handle.db =
      (K.contents w.handle.db).run (K.commands rt w calls) :=
  contents_run admitted.timeless admitted.pending admitted.commands
    (run_commands K inOrder spared)

/-- A pair of a family name and a key, whether or not there is the family. -/
def namedKey (elem : Term) : NifResult (Str × Bytes) := do
  let xs ← elem.getTuple
  let cfName ← (← indexed xs 0).decodeString
  let key ← (← indexed xs 1).decodeBinary
  return (cfName, key)

def Call.gets : Call → Bool
  | .get _ | .getCf .. | .multiGet _ | .multiGetCf _ | .keyMayExist _ | .keyMayExistCf .. => true
  | _ => false

/-- A read of a key that succeeds finds what the table holds. -/
def Shows (c : Contents Str Bytes Bytes) (key : Str × Bytes) (value : Except Str (Option Bytes)) :
    Prop :=
  ∀ v, value = .ok v → v = c.value key.1 key.2

/-- The terms that a read may return when these are the tables. -/
inductive Reads (rt : Rustler) (default : Str) (c : Contents Str Bytes Bytes) :
    Call → Term → Prop where
  | get {key : Term} : Reads rt default c (.get key)
      (found (.ok (c.value default (key.lazyBinary rt))))
  | getCf {cfName key : Term} {name : Str} : cfName.decodeString = .ok name → name ∈ c.names →
      Reads rt default c (.getCf cfName key) (found (.ok (c.value name (key.lazyBinary rt))))
  | multiGet {keys : Term} {bs : List Bytes} {values : List (Except Str (Option Bytes))} :
      decodeKeys rt Term.decodeBinary keys = .ok bs →
      List.Forall₂ (Shows c) (bs.map fun b => (default, b)) values →
      Reads rt default c (.multiGet keys) (foundAll values)
  | multiGetCf {keys : Term} {pairs : List (Str × Bytes)}
      {values : List (Except Str (Option Bytes))} :
      decodeKeys rt namedKey keys = .ok pairs → (∀ pair ∈ pairs, pair.1 ∈ c.names) →
      List.Forall₂ (Shows c) pairs values → Reads rt default c (.multiGetCf keys) (foundAll values)
  | keyMayExist {key : Term} {may : Bool} :
      (may = false → c.value default (key.lazyBinary rt) = none) →
      Reads rt default c (.keyMayExist key) (.tuple [.ok, .bool may])
  | keyMayExistCf {cfName key : Term} {name : Str} {may : Bool} : cfName.decodeString = .ok name →
      (may = false → name ∉ c.names ∨ c.value name (key.lazyBinary rt) = none) →
      Reads rt default c (.keyMayExistCf cfName key) (.tuple [.ok, .bool may])

theorem decoded_succeeds {α : Type} {w : World R} {argument : NifResult α}
    {body : α → Reply × World R} (succeeds : (w.decoded argument body).1.failed = false) :
    ∃ value, argument = .ok value ∧ (body value).1.failed = false := by
  cases argument with
  | ok value => exact ⟨value, rfl, succeeds⟩
  | error stop =>
    rw [World.decoded, stop_failed] at succeeds
    cases succeeds

theorem read_succeeds {w : World R} {body : R.Store → NifResult (Made R)}
    (succeeds : (w.read body).1.failed = false) :
    w.handle.poisoned = false ∧ ∃ made, body w.handle.db = .ok made := by
  cases healthy : w.handle.poisoned with
  | true =>
    rw [World.read, if_pos healthy] at succeeds
    cases succeeds
  | false =>
    cases returns : body w.handle.db with
    | ok made => exact ⟨rfl, made, rfl⟩
    | error stop =>
      rw [World.read_error healthy returns, stop_failed] at succeeds
      cases succeeds

theorem found_succeeds {value : Except Str (Option Bytes)}
    (succeeds : (Reply.term (found value)).failed = false) : ∃ v, value = .ok v := by
  cases value with
  | ok v => exact ⟨v, rfl⟩
  | error e => cases succeeds

theorem found_injective {value : Except Str (Option Bytes)} {v : Option Bytes}
    (same : found value = found (.ok v)) : value = .ok v := by
  rcases value with e | _ | b <;> cases v <;> simp [found, Term.error, Term.ok] at same ⊢
  exact same

theorem get_succeeds {w : World R} {key : Term} (succeeds : (w.get rt key).1.failed = false) :
    ∃ v, R.get w.handle.db none (key.lazyBinary rt) = .ok v ∧
      (w.get rt key).1 = .term (found (.ok v)) := by
  obtain ⟨healthy, _⟩ := read_succeeds succeeds
  rw [World.get_healthy rt healthy] at succeeds ⊢
  obtain ⟨v, finds⟩ := found_succeeds succeeds
  exact ⟨v, finds, by rw [finds]⟩

theorem getCf_succeeds {w : World R} {cfName key : Term}
    (succeeds : (w.getCf rt cfName key).1.failed = false) :
    ∃ name cf v, cfName.decodeString = .ok name ∧ R.cfHandle w.handle.db name = some cf ∧
      R.get w.handle.db (some cf) (key.lazyBinary rt) = .ok v ∧
      (w.getCf rt cfName key).1 = .term (found (.ok v)) := by
  obtain ⟨name, named, body⟩ := decoded_succeeds succeeds
  obtain ⟨healthy, _, returns⟩ := read_succeeds body
  obtain ⟨cf, known, _⟩ := bind_ok returns
  rw [World.getCf_healthy rt healthy named (unwrap_ok known)] at succeeds ⊢
  obtain ⟨v, finds⟩ := found_succeeds succeeds
  exact ⟨name, cf, v, named, unwrap_ok known, finds, by rw [finds]⟩

theorem familyKey_named {db : R.Store} {elem : Term} {cf : Option R.Cf} {key : Bytes}
    (decodes : familyKey db elem = .ok (cf, key)) :
    ∃ name c, namedKey elem = .ok (name, key) ∧ R.cfHandle db name = some c ∧ cf = some c := by
  obtain ⟨xs, tuple, rest⟩ := bind_ok decodes
  obtain ⟨first, at0, rest⟩ := bind_ok rest
  obtain ⟨name, named, rest⟩ := bind_ok rest
  obtain ⟨second, at1, rest⟩ := bind_ok rest
  obtain ⟨b, binary, rest⟩ := bind_ok rest
  obtain ⟨c, known, same⟩ := bind_ok rest
  cases same
  refine ⟨name, c, ?_, unwrap_ok known, rfl⟩
  simp [namedKey, tuple, at0, named, at1, binary, bind, Except.bind, pure, Except.pure]

/-- The pairs of a read in families, by the names and by the handles of these. -/
theorem familyKeys_named {db : R.Store} {elems : List Term} {keys : List (Option R.Cf × Bytes)}
    (each : List.Forall₂ (fun elem key => familyKey db elem = .ok key) elems keys) :
    ∃ pairs, List.Forall₂ (fun elem pair => namedKey elem = .ok pair) elems pairs ∧
      (∀ pair ∈ pairs, (R.cfHandle db pair.1).isSome) ∧
      List.Forall₂ (fun pair key => ∃ c, R.cfHandle db pair.1 = some c ∧ key = (some c, pair.2))
        pairs keys := by
  induction each with
  | nil => exact ⟨[], .nil, by simp, .nil⟩
  | cons decodes _ ih =>
    obtain ⟨pairs, named, known, handles⟩ := ih
    obtain ⟨name, c, pair, here, same⟩ := familyKey_named decodes
    refine ⟨_ :: pairs, .cons pair named, ?_, .cons ⟨c, here, Prod.ext same rfl⟩ handles⟩
    exact List.forall_mem_cons.mpr ⟨by rw [here]; rfl, known⟩

theorem multiGetCf_reads (K : R.Tabled) (eachGet : R.MultiGetEach) {w : World R} {keys : Term}
    (succeeds : (w.step rt (.multiGetCf keys)).1.failed = false) :
    ∃ t, (w.step rt (.multiGetCf keys)).1 = .term t ∧
      Reads rt (K.name none) (K.contents w.handle.db) (.multiGetCf keys) t := by
  obtain ⟨healthy, _, returns⟩ := read_succeeds succeeds
  obtain ⟨looked, decodes, _⟩ := bind_ok returns
  have reply := World.multiGetCf_ok healthy decodes
  obtain ⟨list, each, last⟩ := decodeKeys_ok_iff.mp decodes
  obtain ⟨pairs, named, known, handles⟩ := familyKeys_named each
  have decodes' : decodeKeys rt namedKey keys = .ok pairs :=
    decodeKeys_ok_iff.mpr ⟨list, named, last⟩
  refine ⟨_, congrArg Prod.fst reply, .multiGetCf decodes' ?_ ?_⟩
  · exact fun pair member => (K.known _ _).mpr (known pair member)
  · rw [eachGet, List.forall₂_map_right_iff]
    refine handles.imp ?_
    rintro pair key ⟨c, known, rfl⟩ v finds
    have value := K.get _ _ _ _ (knownCf_some known) finds
    rw [K.named known] at value
    exact value

/-- In a family that there is not, no key may exist. -/
theorem keyMayExistCf_reads (K : R.Tabled) {w : World R} {cfName key : Term}
    (succeeds : (w.step rt (.keyMayExistCf cfName key)).1.failed = false) :
    ∃ t, (w.step rt (.keyMayExistCf cfName key)).1 = .term t ∧
      Reads rt (K.name none) (K.contents w.handle.db) (.keyMayExistCf cfName key) t := by
  obtain ⟨name, named, body⟩ := decoded_succeeds succeeds
  obtain ⟨healthy, _⟩ := read_succeeds body
  have step : w.step rt (.keyMayExistCf cfName key) = w.read _ := World.decoded_ok w _ named
  rw [step]
  cases known : R.cfHandle w.handle.db name with
  | none =>
    refine ⟨_, congrArg Prod.fst (World.read_term healthy (by simp only [known]; rfl)),
      .keyMayExistCf named fun _ => .inl ?_⟩
    intro member
    have there := (K.known _ _).mp member
    rw [known] at there
    cases there
  | some cf =>
    refine ⟨_, congrArg Prod.fst (World.read_term healthy (by simp only [known]; rfl)),
      .keyMayExistCf named fun absent => .inr ?_⟩
    have value := K.mayExist _ _ _ (knownCf_some known) absent
    rw [K.named known] at value
    exact value

theorem step_reads_tables (K : R.Tabled) (eachGet : R.MultiGetEach) {w : World R} {call : Call}
    (gets : call.gets = true) (succeeds : (w.step rt call).1.failed = false) :
    ∃ t, (w.step rt call).1 = .term t ∧ Reads rt (K.name none) (K.contents w.handle.db) call t := by
  cases call with
  | get key =>
    obtain ⟨v, finds, reply⟩ := get_succeeds succeeds
    refine ⟨_, reply, ?_⟩
    rw [K.get _ _ _ _ (knownCf_none _) finds]
    exact .get
  | getCf cfName key =>
    obtain ⟨name, cf, v, named, known, finds, reply⟩ := getCf_succeeds succeeds
    refine ⟨_, reply, ?_⟩
    rw [K.get _ _ _ _ (knownCf_some known) finds, K.named known]
    exact .getCf named ((K.known _ _).mpr (by rw [known]; rfl))
  | multiGet keys =>
    obtain ⟨healthy, _, returns⟩ := read_succeeds succeeds
    obtain ⟨bs, decodes, _⟩ := bind_ok returns
    refine ⟨_, congrArg Prod.fst (World.multiGet_ok healthy decodes), .multiGet decodes ?_⟩
    rw [eachGet, List.map_map, List.forall₂_map_left_iff, List.forall₂_map_right_iff]
    exact List.forall₂_same.mpr fun b _ v finds => K.get _ _ _ _ (knownCf_none _) finds
  | multiGetCf keys => exact multiGetCf_reads K eachGet succeeds
  | keyMayExist key =>
    obtain ⟨healthy, _⟩ := read_succeeds succeeds
    exact ⟨_, congrArg Prod.fst (World.read_term healthy rfl),
      .keyMayExist (K.mayExist _ _ _ (knownCf_none _))⟩
  | keyMayExistCf cfName key => exact keyMayExistCf_reads K succeeds
  | _ => cases gets

/-- The family that a call works in, where it refuses one that there is not. -/
def Call.family : Call → Option Term
  | .putCf cfName _ _ | .getCf cfName _ | .deleteCf cfName _ | .mergeCf cfName _ _
  | .deleteRangeCf cfName _ _ | .iteratorCf cfName _ | .prefixIteratorCf cfName _ => some cfName
  | _ => none

theorem write_succeeds {w : World R} {body : R.Store → NifResult (Term × R.Store)}
    (succeeds : (w.write body).1.failed = false) :
    ∃ t db, body w.handle.db = .ok (t, db) ∧ (Reply.term t).failed = false := by
  rcases w.write_cases body with
    ⟨_, result⟩ | ⟨_, ⟨t, db, returns, result⟩ | ⟨_, result⟩ | ⟨_, result⟩⟩
  all_goals rw [result] at succeeds
  · cases succeeds
  · exact ⟨t, db, returns, succeeds⟩
  · cases succeeds
  · cases succeeds

theorem writeShared_succeeds {w : World R} {body : R.Store → NifResult (Term × R.Store)}
    (succeeds : (w.writeShared body).1.failed = false) :
    ∃ t db, body w.handle.db = .ok (t, db) ∧ (Reply.term t).failed = false := by
  rcases w.writeShared_cases body with
    ⟨_, result⟩ | ⟨_, ⟨t, db, returns, result⟩ | ⟨stop, _, result⟩⟩
  all_goals rw [result] at succeeds
  · cases succeeds
  · exact ⟨t, db, returns, succeeds⟩
  · rw [stop_failed] at succeeds
    cases succeeds

theorem family_known {w : World R} {call : Call} {cfName : Term}
    (family : call.family = some cfName)
    (succeeds : (w.step rt call).1.failed = false) :
    ∃ name, cfName.decodeString = .ok name ∧ (R.cfHandle w.handle.db name).isSome := by
  cases call with
  | putCf =>
    cases family
    obtain ⟨name, named, body⟩ := decoded_succeeds succeeds
    obtain ⟨_, _, returns, _⟩ := write_succeeds body
    obtain ⟨cf, known, _⟩ := bind_ok returns
    exact ⟨name, named, by rw [unwrap_ok known]; rfl⟩
  | deleteCf =>
    cases family
    obtain ⟨name, named, body⟩ := decoded_succeeds succeeds
    obtain ⟨_, _, returns, _⟩ := writeShared_succeeds body
    obtain ⟨cf, known, _⟩ := bind_ok returns
    exact ⟨name, named, by rw [unwrap_ok known]; rfl⟩
  | getCf =>
    cases family
    obtain ⟨name, cf, _, named, known, _⟩ := getCf_succeeds succeeds
    exact ⟨name, named, by rw [known]; rfl⟩
  | mergeCf | deleteRangeCf =>
    cases family
    obtain ⟨name, named, body⟩ := decoded_succeeds succeeds
    obtain ⟨t, db, returns, succeeds'⟩ := write_succeeds body
    cases known : R.cfHandle w.handle.db name with
    | some cf => exact ⟨name, named, by rw [known]; rfl⟩
    | none =>
      simp only [known] at returns
      cases returns
      cases succeeds'
  | iteratorCf | prefixIteratorCf =>
    cases family
    obtain ⟨name, named, body⟩ := decoded_succeeds succeeds
    cases known : R.cfHandle w.handle.db name with
    | some cf => exact ⟨name, named, by rw [known]; rfl⟩
    | none =>
      obtain ⟨healthy, _⟩ := read_succeeds body
      rw [World.read_ok healthy (by simp only [known]; rfl)] at body
      cases body
  | _ => cases family

end ExRocket
