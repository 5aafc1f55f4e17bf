import ExRocket.Nif.Lookup
import ExRocket.Nif.Merges

/-! What the Elixir module adds to the native functions: a default for a key that is not there,
and values that are terms. A put that was acknowledged stays until another write to its key is,
and is read back as the term that it was. -/
namespace ExRocket

open Regroup Rust Tables
open TwoPhase (Answer Leads)

/-- What a function of the module comes back with: a value, or an exception. -/
inductive Returned where
  | value (t : Term)
  | argumentError
  | nifPanicked
  | caseClauseError (t : Term)

def Reply.returned : Reply → Returned
  | .term t => .value t
  | .badarg => .argumentError
  | .panicked => .nifPanicked

/-- `:undefined -> {:ok, default}` -/
def Reply.orDefault (default : Term) : Reply → Returned
  | .term (.atom "undefined") => .value (.tuple [.ok, default])
  | reply => reply.returned

/-- `{:ok, some} -> {:ok, :erlang.binary_to_term(some)}` -/
def Reply.toTerm (binaryToTerm : Bytes → Option Term) : Reply → Returned
  | .term (.atom "undefined") => .value (.atom "undefined")
  | .term (.tuple [.atom "ok", .binary bytes]) =>
    match binaryToTerm bytes with
    | some t => .value (.tuple [.ok, t])
    | none => .argumentError
  | .term (.tuple [.atom "ok", _]) => .argumentError
  | .term t => .caseClauseError t
  | .badarg => .argumentError
  | .panicked => .nifPanicked

namespace World

variable (rt : Rustler) (binaryToTerm : Bytes → Option Term) (termToBinary : Term → Bytes)
  {R : RocksDb} (w : World R)

def getOr (key default : Term) : Returned × World R :=
  ((w.get rt key).1.orDefault default, (w.get rt key).2)

def getb (key : Term) : Returned × World R :=
  ((w.get rt key).1.toTerm binaryToTerm, (w.get rt key).2)

def mergeb (key operand : Term) : Returned × World R :=
  let operandb := Term.binary (termToBinary operand)
  ((w.merge rt key operandb).1.returned, (w.merge rt key operandb).2)

def mergeCfb (cfName key operand : Term) : Returned × World R :=
  let operandb := Term.binary (termToBinary operand)
  ((w.mergeCf rt cfName key operandb).1.returned, (w.mergeCf rt cfName key operandb).2)

def getCfOr (cfName key default : Term) : Returned × World R :=
  ((w.getCf rt cfName key).1.orDefault default, (w.getCf rt cfName key).2)

def getCfb (cfName key : Term) : Returned × World R :=
  ((w.getCf rt cfName key).1.toTerm binaryToTerm, (w.getCf rt cfName key).2)

def snapshotGetOr (resource key default : Term) : Returned × World R :=
  ((w.snapshotGet rt resource key).1.orDefault default, (w.snapshotGet rt resource key).2)

def snapshotGetCfOr (resource cfName key default : Term) : Returned × World R :=
  ((w.snapshotGetCf rt resource cfName key).1.orDefault default,
    (w.snapshotGetCf rt resource cfName key).2)

end World

theorem orDefault_found (default : Term) (v : Option Bytes) :
    (Reply.term (found (.ok v))).orDefault default =
      .value (.tuple [.ok, v.elim default .binary]) := by
  cases v <;> rfl

theorem toTerm_returns_iff {binaryToTerm : Bytes → Option Term}
    (value : Except Str (Option Bytes)) :
    (∃ t, (Reply.term (found value)).toTerm binaryToTerm = .value t) ↔
      ∃ v, value = .ok v ∧ ∀ bytes, v = some bytes → (binaryToTerm bytes).isSome := by
  rcases value with e | _ | bytes
  · simp [found, Term.error, Reply.toTerm]
  · simp [found, Reply.toTerm]
  · simp only [found, Reply.toTerm, Term.ok]
    cases reads : binaryToTerm bytes <;> simp [reads]

variable {rt : Rustler} {R : RocksDb}

theorem defaults_answer {w : World R} (healthy : w.handle.poisoned = false) (key default : Term)
    (v : Option Bytes) :
    let answered := (Returned.value (.tuple [.ok, v.elim default .binary]), w)
    (R.get w.handle.db none (key.lazyBinary rt) = .ok v → w.getOr rt key default = answered) ∧
    (∀ id snap, w.snapshots[id]? = some ⟨snap, false⟩ →
      R.snapGet snap none (key.lazyBinary rt) = .ok v →
      w.snapshotGetOr rt (snapTerm id) key default = answered) ∧
    ∀ cfName name cf, cfName.decodeString = .ok name → R.cfHandle w.handle.db name = some cf →
      (R.get w.handle.db (some cf) (key.lazyBinary rt) = .ok v →
        w.getCfOr rt cfName key default = answered) ∧
      ∀ id snap, w.snapshots[id]? = some ⟨snap, false⟩ →
        R.snapGet snap (some cf) (key.lazyBinary rt) = .ok v →
        w.snapshotGetCfOr rt (snapTerm id) cfName key default = answered := by
  refine ⟨?_, ?_, ?_⟩
  · intro reads
    rw [World.getOr, World.get_healthy rt healthy, reads, orDefault_found]
  · intro id snap taken reads
    have reply : w.snapshotGet rt (snapTerm id) key = (.term (found (.ok v)), w) := by
      refine (World.onSnapshot_get w id key).trans ?_
      rw [World.lockSnapshot_ok taken (by rw [reads]; rfl)]
      rfl
    rw [World.snapshotGetOr, reply, orDefault_found]
  · intro cfName name cf named known
    constructor
    · intro reads
      rw [World.getCfOr, World.getCf_healthy rt healthy named known, reads, orDefault_found]
    · intro id snap taken reads
      have reply : w.snapshotGetCf rt (snapTerm id) cfName key = (.term (found (.ok v)), w) := by
        refine (World.onSnapshot_getCf w id key named).trans ?_
        rw [World.readSnapshot_eq, if_neg (by simp [healthy]),
          World.lockSnapshot_ok taken (by simp only [known]; rfl), reads]
        rfl
      rw [World.snapshotGetCfOr, reply, orDefault_found]

theorem terms_answer {w : World R} (binaryToTerm : Bytes → Option Term)
    (healthy : w.handle.poisoned = false) (key : Term) :
    w.getb rt binaryToTerm key =
        ((Reply.term (found (R.get w.handle.db none (key.lazyBinary rt)))).toTerm binaryToTerm, w) ∧
      ∀ cfName name cf, cfName.decodeString = .ok name → R.cfHandle w.handle.db name = some cf →
        w.getCfb rt binaryToTerm cfName key =
          ((Reply.term (found (R.get w.handle.db (some cf) (key.lazyBinary rt)))).toTerm
            binaryToTerm, w) := by
  constructor
  · rw [World.getb, World.get_healthy rt healthy]
  · intro cfName name cf named known
    rw [World.getCfb, World.getCf_healthy rt healthy named known]

/-- A merge of a term is a merge of its external form: of any term but a binary. -/
theorem mergeb_eq_merge {termToBinary : Term → Bytes} (w : World R) (key : Term) {t : Term}
    (external : termToBinary t = t.lazyBinary rt) :
    w.mergeb rt termToBinary key t = ((w.merge rt key t).1.returned, (w.merge rt key t).2) ∧
      ∀ cfName, w.mergeCfb rt termToBinary cfName key t =
        ((w.mergeCf rt cfName key t).1.returned, (w.mergeCf rt cfName key t).2) := by
  simp only [World.mergeb, World.merge, World.mergeCfb, World.mergeCf, Term.lazyBinary, external,
    implies_true, and_self]

def Call.puts (rt : Rustler) (default : Str) : Call → Option (Str × Bytes × Term)
  | .put key t => some (default, key.lazyBinary rt, t)
  | .putCf cfName key t =>
    cfName.decodeString.toOption.map fun name => (name, key.lazyBinary rt, t)
  | _ => none

theorem put_commands (K : R.Tabled) {w : World R} {call : Call} {name : Str} {key : Bytes}
    {t : Term} (puts : call.puts rt (K.name none) = some (name, key, t))
    (acknowledged : (w.step rt call).1 = .term .ok) :
    K.commands rt w [call] = [.put name key (t.lazyBinary rt)] := by
  have succeeds : (w.step rt call).1.failed = false := by
    rw [acknowledged]
    rfl
  rw [RocksDb.Tabled.commands, journal, journal, succeeds]
  cases call with
  | put k v =>
    cases puts
    rfl
  | putCf cfName k v =>
    have family : (Call.putCf cfName k v).family = some cfName := rfl
    obtain ⟨n, named, known⟩ := family_known family succeeds
    obtain ⟨cf, known⟩ := Option.isSome_iff_exists.mp known
    rw [Call.puts, named] at puts
    cases puts
    simp [Call.change, inFamily, named, known, RocksDb.Tabled.commandsOf, WriteOp.command,
      K.named known, Except.toOption]
  | _ => cases puts

theorem put_pending (K : R.Tabled) (inOrder : R.BatchInOrder) {w : World R} {call : Call}
    {name : Str} {key : Bytes} {t : Term}
    (puts : call.puts rt (K.name none) = some (name, key, t))
    (acknowledged : (w.step rt call).1 = .term .ok) :
    K.view.pending (w.step rt call).2.handle.db name key = ⟨some (t.lazyBinary rt), []⟩ := by
  have succeeds : (w.step rt call).1.failed = false := by
    rw [acknowledged]
    rfl
  have performs := step_commands K inOrder (World.step_spared succeeds)
  rw [put_commands K puts acknowledged] at performs
  cases performs with
  | command keeps rest =>
    cases rest
    have compacts := keeps.pending name key
    rw [Command.onKey, if_pos ⟨rfl, rfl⟩] at compacts
    exact settled_compacts compacts

/-- The bytes of a term are read back as the term, but for a binary, which is stored as it is. -/
theorem toTerm_found {binaryToTerm : Bytes → Option Term} {t : Term}
    (reads : binaryToTerm (rt.toBinary t) = some t) :
    (Reply.term (found (.ok (some (t.lazyBinary rt))))).toTerm binaryToTerm =
        .value (.tuple [.ok, t]) ↔
      ∀ bytes, t = .binary bytes → binaryToTerm bytes = some t := by
  have read : ∀ bytes, (Reply.term (found (.ok (some bytes)))).toTerm binaryToTerm =
      .value (.tuple [.ok, t]) ↔ binaryToTerm bytes = some t := by
    intro bytes
    simp only [found, Reply.toTerm, Term.ok]
    cases binaryToTerm bytes <;> simp
  rw [read]
  cases t with
  | binary bytes => simp [Term.lazyBinary]
  | _ => simpa [Term.lazyBinary] using reads

/-- While no other command for its key is acknowledged, a put that was acknowledged is what every
read of the key finds that succeeds, whatever else there is at the same time. -/
theorem session_keeps_put (K : R.Tabled) (inOrder : R.BatchInOrder)
    {policy : Nat → Locks.Policy Resource} {w : World R} {n : Nat} {s : NifSession R}
    (leads : Leads (nifs rt R) Offered policy (.opened w) n s)
    {before between later : List (Answer Reply Call)} {p g : Answer Reply Call}
    (history : s.history = before ++ p :: (between ++ g :: later)) {name : Str} {key : Bytes}
    {t : Term} (puts : p.call.puts rt (K.name none) = some (name, key, t))
    (acknowledged : p.reply = .term .ok)
    (spared : (w.run rt ((before ++ [p]).map Answer.call)).2.SparedRun rt
      (between.map Answer.call))
    (keeps : ∀ command ∈ K.commands rt (w.run rt ((before ++ [p]).map Answer.call)).2
      (between.map Answer.call), command.onKey name key = .keep)
    (gets : g.call.readsKey rt (K.name none) = some (name, key))
    (succeeds : g.reply.failed = false) {binaryToTerm : Bytes → Option Term}
    (reads : binaryToTerm (rt.toBinary t) = some t) :
    g.reply = .term (found (.ok (some (t.lazyBinary rt)))) ∧
      (g.reply.toTerm binaryToTerm = .value (.tuple [.ok, t]) ↔
        ∀ bytes, t = .binary bytes → binaryToTerm bytes = some t) := by
  have wrote := linearized_at leads history
  have split : s.history = (before ++ [p] ++ between) ++ g :: later := by simp [history]
  have found_ := linearized_at leads split
  rw [acknowledged] at wrote
  rw [List.map_append, run_append_world] at found_
  have after : (w.run rt ((before ++ [p]).map Answer.call)).2 =
      ((w.run rt (before.map Answer.call)).2.step rt p.call).2 := by
    rw [List.map_append, run_append_world]
    rfl
  have pending := put_pending K inOrder puts wrote.symm
  rw [← after] at pending
  have settled := settled_run pending keeps (run_commands K inOrder spared)
  rw [found_] at succeeds
  have reply := step_reads_key K gets succeeds
  rw [← found_] at reply
  have whole : g.reply = .term (found (.ok (some (t.lazyBinary rt)))) := by
    rw [reply, RocksDb.Tabled.contents, settled_value settled]
  rw [whole]
  exact ⟨rfl, toTerm_found reads⟩

def putPutGet : List Call :=
  [.put (.binary [97]) .nil, .put (.binary [98]) (.binary [49]), .get (.binary [97])]

def readsNil (bytes : Bytes) : Option Term := if bytes = [131, 106] then some .nil else none

/-- The three calls are there at the same time. -/
theorem session_keeps_put_nil :
    (Reply.term (found (.ok (some [131, 106])))).toTerm readsNil = .value (.tuple [.ok, .nil]) := by
  have offered : AllOffered Memory.rustler (Memory.mergingWorld none) [putPutGet] :=
    ⟨calls_offered _ rfl, trivial⟩
  obtain ⟨_, leads⟩ := rounds_come offered 0 []
  have history : answers Memory.rustler (Memory.mergingWorld none) 0 putPutGet =
      [] ++ ⟨0, .put (.binary [97]) .nil, .term .ok⟩ ::
        ([⟨1, .put (.binary [98]) (.binary [49]), .term .ok⟩] ++
          ⟨2, .get (.binary [97]), .term (found (.ok (some [131, 106])))⟩ :: []) := by
    rfl
  have spared : ((Memory.mergingWorld none).run Memory.rustler
      [.put (.binary [97]) .nil]).2.SparedRun Memory.rustler
      [.put (.binary [98]) (.binary [49])] := by
    apply World.run_spared
    intro reply member
    rw [List.mem_singleton.mp member]
    rfl
  have keeps : ∀ command ∈ [Command.put "default".toList [98] [49]],
      command.onKey "default".toList ([97] : Bytes) = (Write.keep : Write Bytes) := by
    intro command member
    rw [List.mem_singleton.mp member]
    rfl
  have reads : readsNil (Memory.rustler.toBinary .nil) = some .nil := rfl
  have stays := session_keeps_put Memory.tabled (fun _ _ _ written => written) leads history rfl
    rfl spared keeps rfl rfl reads
  exact stays.2.mpr (by simp)

end ExRocket
