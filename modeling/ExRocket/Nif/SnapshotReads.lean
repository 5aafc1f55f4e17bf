import ExRocket.Nif.Drain
import ExRocket.Nif.Snapshots

/-! Reads of a snapshot against reads of the store it was taken from. Writes to the store
leave the snapshots and the families alone, so the two differ only in how they decode their
arguments and in the handle, which the snapshot functions on families still need. -/
namespace ExRocket

open Rust

variable {rt : Rustler} {R : RocksDb}

/-- A snapshot reads the store as of its creation. -/
structure RocksDb.Frozen (R : RocksDb) : Prop where
  get : ∀ s cf key, R.snapGet (R.snapshot s) cf key = R.get s cf key
  multiGet : ∀ s keys, R.snapMultiGet (R.snapshot s) keys = R.multiGet s keys
  iterator : ∀ s cf mode n,
    R.drain n (R.snapIterator (R.snapshot s) cf mode) = R.drain n (R.iterator s cf mode .default)

/-- The calls that write data: they neither create nor drop a family. -/
def Call.writesData : Call → Bool
  | .put .. | .delete .. | .merge .. | .mergeCf .. | .writeBatch .. | .putCf .. | .deleteCf ..
  | .deleteRange .. | .deleteRangeCf .. => true
  | _ => false

namespace World

/-- What writing data leaves alone. -/
structure Frame (w v : World R) : Prop where
  snapshots : v.snapshots = w.snapshots
  families : R.cfHandle v.handle.db = R.cfHandle w.handle.db

def KeepsFamilies (body : R.Store → NifResult (Term × R.Store)) : Prop :=
  ∀ db t db', body db = .ok (t, db') → R.cfHandle db' = R.cfHandle db

variable {w v : World R}

theorem frame_refl (w : World R) : Frame w w := ⟨rfl, rfl⟩

theorem frame_trans {u : World R} (first : Frame w v) (second : Frame v u) : Frame w u :=
  ⟨second.snapshots.trans first.snapshots, second.families.trans first.families⟩

theorem write_frame {body : R.Store → NifResult (Term × R.Store)} (keeps : KeepsFamilies body) :
    Frame w (w.write body).2 := by
  rcases w.write_cases body with ⟨_, result⟩ |
    ⟨_, ⟨t, db, returns, result⟩ | ⟨_, result⟩ | ⟨_, result⟩⟩
  · simp only [result]
    exact frame_refl w
  · simp only [result]
    exact ⟨rfl, keeps _ _ _ returns⟩
  · simp only [result]
    exact frame_refl w
  · simp only [result]
    exact ⟨rfl, rfl⟩

theorem writeShared_frame {body : R.Store → NifResult (Term × R.Store)}
    (keeps : KeepsFamilies body) : Frame w (w.writeShared body).2 := by
  rcases w.writeShared_cases body with ⟨_, result⟩ |
    ⟨_, ⟨t, db, returns, result⟩ | ⟨stop, _, result⟩⟩
  · simp only [result]
    exact frame_refl w
  · simp only [result]
    exact ⟨rfl, keeps _ _ _ returns⟩
  · simp only [result]
    exact frame_refl w

theorem decoded_frame {α : Type} {argument : NifResult α} {body : α → Reply × World R}
    (keeps : ∀ value, Frame w (body value).2) : Frame w (w.decoded argument body).2 := by
  cases argument with
  | ok value => exact keeps value
  | error stop => exact frame_refl w

theorem issued_families {db db' : R.Store} {op : WriteOp R.Cf} {t : Term}
    (returns : (pure (done db (.issue op)) : NifResult (Term × R.Store)) = .ok (t, db')) :
    R.cfHandle db' = R.cfHandle db := by
  rcases done_cases returns with ⟨_, issues⟩ | ⟨_, _, _, left⟩
  · exact R.issue_families db op db' issues
  · rw [left]
    exact R.refusedIssue_families db op

theorem issues_families {ops : List (WriteOp R.Cf)} {s s' : R.Store}
    (issued : ops.foldlM R.issue s = .ok s') : R.cfHandle s' = R.cfHandle s := by
  induction ops generalizing s with
  | nil =>
    cases issued
    rfl
  | cons op ops ih =>
    rw [List.foldlM_cons] at issued
    obtain ⟨mid, first, rest⟩ := bind_ok issued
    exact (ih rest).trans (R.issue_families _ _ _ first)

theorem applyBatch_keeps (inOrder : R.BatchInOrder) (txs : Term) :
    KeepsFamilies (R := R) (applyBatch rt txs) := by
  intro db t db' returns
  obtain ⟨batch, _, ⟨_, ⟨_, rfl⟩ | ⟨_, written⟩⟩ | ⟨_, _, _, _, rfl⟩⟩ := applyBatch_ok returns
  · rfl
  · exact issues_families (inOrder _ _ _ written)
  · exact R.refusedWrite_families db batch

theorem familyWrite_keeps (name : Str) (op : R.Cf → WriteOp R.Cf) :
    KeepsFamilies (familyWrite name op) := by
  intro db t db' returns
  obtain ⟨cf, _, rest⟩ := bind_ok returns
  exact issued_families rest

theorem step_frame (inOrder : R.BatchInOrder) {call : Call} (data : call.writesData = true) :
    Frame w (w.step rt call).2 := by
  cases call with
  | put | delete | merge => exact write_frame fun _ _ _ returns => issued_families returns
  | writeBatch txs => exact write_frame (applyBatch_keeps inOrder txs)
  | deleteRange keyFrom keyTo =>
    apply write_frame
    intro db t db' returns
    rcases done_cases returns with ⟨_, written⟩ | ⟨_, _, _, left⟩
    · exact issues_families (inOrder _ _ _ written)
    · rw [left]
      exact R.refusedWrite_families _ _
  | mergeCf cfName key operand =>
    apply decoded_frame
    intro name
    apply write_frame
    intro db t db' returns
    dsimp only at returns
    split at returns
    · exact issued_families returns
    · cases returns
      rfl
  | deleteRangeCf cfName keyFrom keyTo =>
    apply decoded_frame
    intro name
    apply write_frame
    intro db t db' returns
    dsimp only at returns
    split at returns
    · cases returns
      rfl
    · exact issued_families returns
  | putCf cfName key val =>
    exact decoded_frame fun name => write_frame (familyWrite_keeps name _)
  | deleteCf cfName key =>
    exact decoded_frame fun name => writeShared_frame (familyWrite_keeps name _)
  | _ => cases data

theorem run_frame (rt : Rustler) (inOrder : R.BatchInOrder) {calls : List Call}
    (data : ∀ call ∈ calls, call.writesData = true) : Frame w (w.run rt calls).2 := by
  induction calls generalizing w with
  | nil => exact frame_refl w
  | cons call calls ih =>
    obtain ⟨now, later⟩ := List.forall_mem_cons.mp data
    exact frame_trans (step_frame inOrder now) (ih later)

end World

theorem decodeString_ok_iff {t : Term} {text : Str} :
    t.decodeString = .ok text ↔ t = .binary (intoBytes text) := by
  constructor
  · intro decodes
    cases t with
    | binary bytes =>
      rw [Term.decodeString] at decodes
      split at decodes
      · rename_i reads
        cases decodes
        rw [intoBytes_fromUtf8 reads]
      · cases decodes
    | _ => cases decodes
  · rintro rfl
    rw [Term.decodeString, fromUtf8_intoBytes]
    rfl

/-- A list that is read as bytes and as text is read as the same bytes. -/
theorem texts_bytes {ts : List Term} {bs : List Bytes} {ss : List Str}
    (bytes : List.Forall₂ (fun t b => t.decodeBinary = .ok b) ts bs)
    (texts : List.Forall₂ (fun t s => t.decodeString = .ok s) ts ss) :
    ss.map intoBytes = bs := by
  induction bytes generalizing ss with
  | nil =>
    cases texts
    rfl
  | cons head _ ih =>
    cases texts with
    | cons head' rest =>
      rw [decodeBinary_ok_iff] at head
      rw [head, decodeString_ok_iff] at head'
      cases head'
      rw [List.map_cons, ih rest]

theorem familyKey_congr {db db' : R.Store} (same : R.cfHandle db = R.cfHandle db') :
    familyKey (R := R) db = familyKey db' := by
  unfold familyKey
  simp only [same]

theorem found_plain (value : Except Str (Option Bytes)) (id : Nat) :
    found value ≠ .tuple [.atom "ok", .resource (.iterator id)] := by
  rcases value with e | _ | v <;> simp [found, Term.error]

theorem foundAll_plain (values : List (Except Str (Option Bytes))) (id : Nat) :
    foundAll values ≠ .tuple [.atom "ok", .resource (.iterator id)] := by
  cases values <;> intro same <;> cases same

/-- When a read of a snapshot, after writes to the store, gives what the live read gave: the
keys of a list have to be text, and for the functions on families no write panicked. -/
def Read.Faithful (rt : Rustler) (v : World R) (writes : List Call) : Read → Prop
  | .get _ | .iterator _ => True
  | .multiGet keys => ∀ k ∈ elements keys, ∃ text, k.decodeString = .ok text
  | .getCf .. | .multiGetCf _ | .iteratorCf .. => v.HarmlessRun rt writes

namespace World

variable {w v : World R} {id : Nat}

theorem lockSnapshot_term {snap : R.Snap} {body : R.Snap → NifResult (Made R)} {t : Term}
    (taken : w.snapshots[id]? = some ⟨snap, false⟩) (returns : body snap = .ok (.term t)) :
    w.lockSnapshot id body = (.term t, w) :=
  lockSnapshot_ok taken returns

theorem lockSnapshot_error {snap : R.Snap} {body : R.Snap → NifResult (Made R)} {stop : Stop}
    (taken : w.snapshots[id]? = some ⟨snap, false⟩) (fails : body snap = .error stop) :
    ∃ u, w.lockSnapshot id body = (stop.reply, u) := by
  cases stop with
  | badarg => exact ⟨w, lockSnapshot_badarg taken fails⟩
  | panic => exact ⟨_, lockSnapshot_panic taken fails⟩

/-- The snapshot of a store, in a world that has the store's families. -/
structure Snapped (w v : World R) (id : Nat) : Prop where
  live : w.handle.poisoned = false
  taken : v.snapshots[id]? = some ⟨R.snapshot w.handle.db, false⟩
  families : R.cfHandle v.handle.db = R.cfHandle w.handle.db

def Agrees (rt : Rustler) (w v : World R) (id : Nat) (read : Read) : Prop :=
  ∀ n, w.observed rt read.live n = v.observed rt (read.onSnapshot id) n

theorem agrees_plain {read : Read} {t : Term} {u u' : World R}
    (live : w.step rt read.live = (.term t, u))
    (snapped : v.step rt (read.onSnapshot id) = (.term t, u'))
    (plain : ∀ id, t ≠ .tuple [.atom "ok", .resource (.iterator id)]) :
    w.Agrees rt v id read := by
  intro n
  rw [observed_term live plain, observed_term snapped plain]

theorem agrees_iterator (frozen : R.Frozen) {read : Read} {cf : Option R.Cf} {mode : IteratorMode}
    (live : w.step rt read.live = w.release (.iterator (R.iterator w.handle.db cf mode .default)))
    (snapped : v.step rt (read.onSnapshot id) =
      v.release (.iterator (R.snapIterator (R.snapshot w.handle.db) cf mode))) :
    w.Agrees rt v id read := by
  intro n
  rw [observed_iterator live, observed_iterator snapped, frozen.iterator]

def Accepted (rt : Rustler) (w : World R) (read : Read) : Prop :=
  ∃ t, (w.step rt read.live).1 = .term t

theorem stop_refuses {read : Read} {stop : Stop} {u : World R}
    (live : w.step rt read.live = (stop.reply, u)) : ¬ w.Accepted rt read := by
  rintro ⟨t, replied⟩
  rw [live] at replied
  cases stop <;> cases replied

/-- A read that is accepted live does not agree with one that is refused or panics. -/
theorem stop_disagrees {read : Read} {stop : Stop} {u : World R} (accepted : w.Accepted rt read)
    (snapped : v.step rt (read.onSnapshot id) = (stop.reply, u)) :
    ¬ w.Agrees rt v id read := by
  intro agrees
  have first := agrees 0
  obtain ⟨t, replied⟩ := accepted
  rw [observed_stop snapped, observed] at first
  split at first
  · cases first
  · rename_i reply _ _ step
    rw [step] at replied
    have same : reply = .term t := replied
    rw [same] at first
    cases stop <;> cases first

theorem get_agrees (frozen : R.Frozen) (snapped : Snapped w v id) (key : Term) :
    w.Agrees rt v id (.get key) := by
  have live := get_healthy rt snapped.live key
  have taken : v.step rt ((Read.get key).onSnapshot id) =
      (.term (found (R.get w.handle.db none (key.lazyBinary rt))), v) := by
    rw [onSnapshot_get, ← frozen.get]
    exact lockSnapshot_term snapped.taken rfl
  exact agrees_plain live taken (found_plain _)

theorem iterator_agrees (frozen : R.Frozen) (snapped : Snapped w v id) {mode : Term}
    (accepted : w.Accepted rt (.iterator mode)) : w.Agrees rt v id (.iterator mode) := by
  cases decodes : iteratorMode mode with
  | error stop =>
    have refused : w.step rt (Read.iterator mode).live = (stop.reply, w) := by
      simp only [Read.live, step, iterator]
      apply read_error snapped.live
      simp only [decodes]
      rfl
    exact absurd accepted (stop_refuses refused)
  | ok m =>
    have live : w.step rt (Read.iterator mode).live =
        w.release (.iterator (R.iterator w.handle.db none m .default)) := by
      simp only [Read.live, step, iterator]
      apply read_ok snapped.live
      simp only [decodes]
      rfl
    have taken : v.step rt ((Read.iterator mode).onSnapshot id) =
        v.release (.iterator (R.snapIterator (R.snapshot w.handle.db) none m)) := by
      rw [onSnapshot_iterator]
      apply lockSnapshot_ok snapped.taken
      simp only [decodes]
      rfl
    exact agrees_iterator frozen live taken

theorem multiGet_agrees_iff (frozen : R.Frozen) (snapped : Snapped w v id) {keys : Term}
    (accepted : w.Accepted rt (.multiGet keys)) :
    w.Agrees rt v id (.multiGet keys) ↔
      ∀ k ∈ elements keys, ∃ text, k.decodeString = .ok text := by
  cases decodes : decodeKeys rt Term.decodeBinary keys with
  | error stop =>
    have refused := multiGet_error snapped.live decodes
    exact absurd accepted (stop_refuses refused)
  | ok bs =>
    have live := multiGet_ok snapped.live decodes
    obtain ⟨list, bytes, last⟩ := decodeKeys_ok_iff.mp decodes
    rw [← forall₂_accepts_iff]
    cases reads : decodeKeys rt Term.decodeString keys with
    | error stop =>
      obtain ⟨u, stopped⟩ : ∃ u, v.step rt ((Read.multiGet keys).onSnapshot id) =
          (stop.reply, u) := by
        rw [onSnapshot_multiGet]
        apply lockSnapshot_error snapped.taken
        simp only [reads]
        rfl
      apply iff_of_false (stop_disagrees accepted stopped)
      rintro ⟨ss, texts⟩
      rw [decodeKeys_ok_iff.mpr ⟨list, texts, last⟩] at reads
      cases reads
    | ok ss =>
      have texts := (decodeKeys_ok_iff.mp reads).2.1
      have taken : v.step rt ((Read.multiGet keys).onSnapshot id) =
          (.term (foundAll (R.multiGet w.handle.db (bs.map fun b => (none, b)))), v) := by
        rw [onSnapshot_multiGet, ← frozen.multiGet, ← texts_bytes bytes texts, List.map_map]
        apply lockSnapshot_term snapped.taken
        simp only [reads]
        rfl
      exact iff_of_true (agrees_plain live taken (foundAll_plain _)) ⟨ss, texts⟩

section Families

/-- The functions that need the handle: a poisoned one stops the snapshot's read. -/
theorem families_agree_iff {read : Read} {body : R.Store → R.Snap → NifResult (Made R)}
    (accepted : w.Accepted rt read)
    (step : v.step rt (read.onSnapshot id) = v.readSnapshot (snapTerm id) body)
    (agrees : v.handle.poisoned = false →
      v.step rt (read.onSnapshot id) = v.lockSnapshot id (body v.handle.db) →
      w.Agrees rt v id read) :
    w.Agrees rt v id read ↔ v.handle.poisoned = false := by
  rw [readSnapshot_eq] at step
  cases poisoned : v.handle.poisoned with
  | true =>
    rw [poisoned, if_pos rfl] at step
    have panicked : v.step rt (read.onSnapshot id) = (Stop.panic.reply, v) := step
    exact iff_of_false (stop_disagrees accepted panicked) nofun
  | false =>
    rw [poisoned] at step
    exact iff_of_true (agrees poisoned step) rfl

theorem accepted_named {read : Read} {cfName : Term} {body : Str → Reply × World R}
    (accepted : w.Accepted rt read)
    (live : w.step rt read.live = w.decoded cfName.decodeString body) :
    ∃ name, cfName.decodeString = .ok name := by
  cases named : cfName.decodeString with
  | ok name => exact ⟨name, rfl⟩
  | error stop =>
    rw [named] at live
    exact absurd accepted (stop_refuses live)

theorem getCf_agrees_iff (frozen : R.Frozen) (snapped : Snapped w v id) {cfName key : Term}
    (accepted : w.Accepted rt (.getCf cfName key)) :
    w.Agrees rt v id (.getCf cfName key) ↔ v.handle.poisoned = false := by
  obtain ⟨name, named⟩ := accepted_named accepted rfl
  apply families_agree_iff accepted (onSnapshot_getCf v id key named)
  intro _ step
  cases known : R.cfHandle w.handle.db name with
  | none =>
    have panicked : w.step rt (Read.getCf cfName key).live = (Stop.panic.reply, w) := by
      rw [Read.live, World.step, getCf, decoded_ok w _ named]
      apply read_error snapped.live
      simp only [known]
      rfl
    exact absurd accepted (stop_refuses panicked)
  | some cf =>
    have live := getCf_healthy rt snapped.live named known key
    have taken : v.step rt ((Read.getCf cfName key).onSnapshot id) =
        (.term (found (R.get w.handle.db (some cf) (key.lazyBinary rt))), v) := by
      rw [step, ← frozen.get]
      apply lockSnapshot_term snapped.taken
      rw [snapped.families, known]
      rfl
    exact agrees_plain live taken (found_plain _)

theorem multiGetCf_agrees_iff (frozen : R.Frozen) (snapped : Snapped w v id) {keys : Term}
    (accepted : w.Accepted rt (.multiGetCf keys)) :
    w.Agrees rt v id (.multiGetCf keys) ↔ v.handle.poisoned = false := by
  apply families_agree_iff accepted (onSnapshot_multiGetCf v id keys)
  intro _ step
  cases decodes : decodeKeys rt (familyKey w.handle.db) keys with
  | error stop =>
    have refused := multiGetCf_error snapped.live decodes
    exact absurd accepted (stop_refuses refused)
  | ok pairs =>
    have live := multiGetCf_ok snapped.live decodes
    have taken : v.step rt ((Read.multiGetCf keys).onSnapshot id) =
        (.term (foundAll (R.multiGet w.handle.db pairs)), v) := by
      rw [step, ← frozen.multiGet]
      apply lockSnapshot_term snapped.taken
      rw [familyKey_congr snapped.families, decodes]
      rfl
    exact agrees_plain live taken (foundAll_plain _)

theorem iteratorCf_agrees_iff (frozen : R.Frozen) (snapped : Snapped w v id) {cfName mode : Term}
    (accepted : w.Accepted rt (.iteratorCf cfName mode)) :
    w.Agrees rt v id (.iteratorCf cfName mode) ↔ v.handle.poisoned = false := by
  obtain ⟨name, named⟩ := accepted_named accepted rfl
  apply families_agree_iff accepted (onSnapshot_iteratorCf v id mode named)
  intro _ step
  cases known : R.cfHandle w.handle.db name with
  | none =>
    have live : w.step rt (Read.iteratorCf cfName mode).live = (.term unknownCf, w) := by
      refine (decoded_ok w _ named).trans ?_
      apply read_term snapped.live
      simp only [known]
      rfl
    have taken : v.step rt ((Read.iteratorCf cfName mode).onSnapshot id) =
        (.term unknownCf, v) := by
      simp only [step]
      apply lockSnapshot_term snapped.taken
      simp only [snapped.families, known]
      rfl
    exact agrees_plain live taken (by simp [unknownCf])
  | some cf =>
    cases decodes : iteratorMode mode with
    | error stop =>
      have refused : w.step rt (Read.iteratorCf cfName mode).live = (stop.reply, w) := by
        refine (decoded_ok w _ named).trans ?_
        apply read_error snapped.live
        simp only [known, decodes]
        rfl
      exact absurd accepted (stop_refuses refused)
    | ok m =>
      have live : w.step rt (Read.iteratorCf cfName mode).live =
          w.release (.iterator (R.iterator w.handle.db (some cf) m .default)) := by
        refine (decoded_ok w _ named).trans ?_
        apply read_ok snapped.live
        simp only [known, decodes]
        rfl
      have taken : v.step rt ((Read.iteratorCf cfName mode).onSnapshot id) =
          v.release (.iterator (R.snapIterator (R.snapshot w.handle.db) (some cf) m)) := by
        simp only [step]
        apply lockSnapshot_ok snapped.taken
        simp only [snapped.families, known, decodes]
        rfl
      exact agrees_iterator frozen live taken

end Families

theorem step_snapshot (healthy : w.handle.poisoned = false) :
    w.step rt .snapshot =
      (.term (.tuple [.ok, snapTerm w.snapshots.length]),
        { w with snapshots := w.snapshots ++ [⟨R.snapshot w.handle.db, false⟩] }) := by
  have taken : w.step rt .snapshot = w.release (.snapshot (R.snapshot w.handle.db)) := by
    simp only [step, snapshot]
    apply read_ok healthy
    rfl
  exact taken

theorem snapped_run (rt : Rustler) (inOrder : R.BatchInOrder) (healthy : w.handle.poisoned = false)
    {writes : List Call} (data : ∀ call ∈ writes, call.writesData = true) :
    Snapped w ((w.step rt .snapshot).2.run rt writes).2 w.snapshots.length := by
  have frame : Frame (w.step rt .snapshot).2 ((w.step rt .snapshot).2.run rt writes).2 :=
    run_frame rt inOrder data
  have snapshots := frame.snapshots
  have families := frame.families
  rw [step_snapshot healthy] at snapshots families ⊢
  refine ⟨healthy, ?_, families⟩
  simp only [snapshots]
  simp

theorem snapshot_reads_agree_iff (frozen : R.Frozen) (inOrder : R.BatchInOrder)
    (healthy : w.handle.poisoned = false) {writes : List Call}
    (data : ∀ call ∈ writes, call.writesData = true) {read : Read}
    (accepted : w.Accepted rt read) :
    (w.step rt .snapshot).1 = .term (.tuple [.ok, snapTerm w.snapshots.length]) ∧
      (w.Agrees rt ((w.step rt .snapshot).2.run rt writes).2 w.snapshots.length read ↔
        read.Faithful rt (w.step rt .snapshot).2 writes) := by
  have snapped := snapped_run rt inOrder healthy data
  have opened : (w.step rt .snapshot).2.handle.poisoned = false := by
    rw [step_snapshot healthy]
    exact healthy
  have unpoisoned := run_healthy_iff rt writes opened
  constructor
  · rw [step_snapshot healthy]
  · cases read with
    | get key => exact iff_of_true (get_agrees frozen snapped key) trivial
    | iterator mode => exact iff_of_true (iterator_agrees frozen snapped accepted) trivial
    | multiGet keys => exact multiGet_agrees_iff frozen snapped accepted
    | getCf cfName key => exact (getCf_agrees_iff frozen snapped accepted).trans unpoisoned
    | multiGetCf keys => exact (multiGetCf_agrees_iff frozen snapped accepted).trans unpoisoned
    | iteratorCf cfName mode =>
      exact (iteratorCf_agrees_iff frozen snapped accepted).trans unpoisoned

theorem memory_frozen : Memory.rocksDb.Frozen where
  get _ _ _ := rfl
  multiGet _ _ := rfl
  iterator _ _ _ _ := rfl

theorem snapshot_reads_agree_iff_after_put :
    (Memory.world.step Memory.rustler .snapshot).1 =
        .term (.tuple [.ok, snapTerm Memory.world.snapshots.length]) ∧
      (Memory.world.Agrees Memory.rustler
          ((Memory.world.step Memory.rustler .snapshot).2.run Memory.rustler
            [.put (.binary [97]) (.binary [49])]).2
          Memory.world.snapshots.length (.multiGet (.ofList [.binary [97]])) ↔
        Read.Faithful Memory.rustler (Memory.world.step Memory.rustler .snapshot).2
          [.put (.binary [97]) (.binary [49])] (.multiGet (.ofList [.binary [97]]))) :=
  snapshot_reads_agree_iff memory_frozen Memory.batchInOrder rfl (by decide) ⟨_, rfl⟩

/- The byte 255 is a key but no text: the live store has it, the snapshot turns it down. -/
theorem snapshot_refuses_key :
    ((Memory.world.run Memory.rustler [.put (.binary [255]) (.binary [49]), .snapshot,
      .multiGet (.ofList [.binary [255]]),
      .snapshotMultiGet (snapTerm 0) (.ofList [.binary [255]])]).1 =
      [.term .ok, .term (.tuple [.ok, snapTerm 0]),
        .term (.tuple [.ok, .ofList [.tuple [.ok, .binary [49]]]]), .badarg]) ∧
    ¬ ∀ (w : World Memory.rocksDb) (writes : List Call) (read : Read),
      w.handle.poisoned = false → (∀ call ∈ writes, call.writesData = true) →
      w.Accepted Memory.rustler read →
      w.Agrees Memory.rustler ((w.step Memory.rustler .snapshot).2.run Memory.rustler writes).2
        w.snapshots.length read := by
  refine ⟨rfl, ?_⟩
  intro agrees
  have replies := agrees Memory.world [] (.multiGet (.ofList [.binary [255]])) rfl
    (by decide) ⟨_, rfl⟩ 0
  cases replies

end World
end ExRocket
