import ExRocket.Nif.Poison

/-! The resources that terms refer to, and what a native call does with them. A call needs
the resources it is given; what it makes comes from one of these, and its reply refers to
nothing else. -/
namespace ExRocket

open Rust

mutual

def Term.resources : Term → List Resource
  | .resource r => [r]
  | .tuple elements => allResources elements
  | .cons head tail => head.resources ++ tail.resources
  | .map pairs => pairResources pairs
  | _ => []

def allResources : List Term → List Resource
  | [] => []
  | t :: ts => t.resources ++ allResources ts

def pairResources : List (Term × Term) → List Resource
  | [] => []
  | (key, value) :: pairs => key.resources ++ value.resources ++ pairResources pairs

end

def Reply.resources : Reply → List Resource
  | .term t => t.resources
  | .badarg | .panicked => []

namespace Call

def arguments : Call → List Term
  | .latestSequenceNumber | .getDbPath | .snapshot => []
  | .get key | .delete key | .keyMayExist key => [key]
  | .put key val => [key, val]
  | .merge key operand => [key, operand]
  | .mergeCf cfName key operand => [cfName, key, operand]
  | .writeBatch txs => [txs]
  | .iterator mode => [mode]
  | .iteratorRange mode first last readOpts => [mode, first, last, readOpts]
  | .next resource => [resource]
  | .prefixIterator start => [start]
  | .createCf cfName opts => [cfName, opts]
  | .dropCf cfName => [cfName]
  | .putCf cfName key val => [cfName, key, val]
  | .getCf cfName key | .deleteCf cfName key | .keyMayExistCf cfName key => [cfName, key]
  | .iteratorCf cfName mode => [cfName, mode]
  | .prefixIteratorCf cfName start => [cfName, start]
  | .deleteRange keyFrom keyTo => [keyFrom, keyTo]
  | .deleteRangeCf cfName keyFrom keyTo => [cfName, keyFrom, keyTo]
  | .multiGet keys | .multiGetCf keys => [keys]
  | .snapshotGet resource key => [resource, key]
  | .snapshotGetCf resource cfName key => [resource, cfName, key]
  | .snapshotMultiGet resource keys | .snapshotMultiGetCf resource keys => [resource, keys]
  | .snapshotIterator resource mode => [resource, mode]
  | .snapshotIteratorCf resource cfName mode => [resource, cfName, mode]
  | .createCheckpoint path | .createBackup path => [path]

/-- The calls that are not given the handle as an argument of its own. -/
def onHandle : Call → Bool
  | .next _ | .snapshotGet .. | .snapshotGetCf .. | .snapshotMultiGet .. | .snapshotMultiGetCf ..
  | .snapshotIterator .. | .snapshotIteratorCf .. => false
  | _ => true

/-- The resources a call is given. -/
def given (call : Call) : List Resource :=
  (if call.onHandle then [.db] else []) ++ allResources call.arguments

end Call

variable {rt : Rustler} {R : RocksDb}

theorem resources_ofList {ts : List Term} (plain : ∀ t ∈ ts, t.resources = []) :
    (Term.ofList ts).resources = [] := by
  induction ts with
  | nil => rfl
  | cons t ts ih =>
    obtain ⟨head, tail⟩ := List.forall_mem_cons.mp plain
    rw [Term.ofList, Term.resources, head, ih tail, List.nil_append]

@[simp] theorem resources_error (text : Str) : (Term.error text).resources = [] := by
  simp [Term.error, Term.resources, allResources]

@[simp] theorem resources_found (value : Except Str (Option Bytes)) :
    (found value).resources = [] := by
  rcases value with e | _ | v <;> simp [found, Term.resources, allResources, Term.ok]

@[simp] theorem resources_foundAll (values : List (Except Str (Option Bytes))) :
    (foundAll values).resources = [] := by
  have plain : (Term.ofList (values.map found)).resources = [] := by
    apply resources_ofList
    intro t member
    obtain ⟨value, _, rfl⟩ := List.mem_map.mp member
    exact resources_found value
  simp [foundAll, Term.resources, allResources, Term.ok, plain]

@[simp] theorem resources_done {R : RocksDb} (db : R.Store) (change : Change R.Cf R.Opts) :
    (done db change).1.resources = [] := by
  unfold done
  split
  · rfl
  · exact resources_error _

theorem resources_backups (infos : List BackupInfo) :
    (Term.tuple [.ok, .ofList (infos.map fun i => .tuple [.atom "backup", .integer i.backupId,
      .integer i.timestamp, .integer i.size, .integer i.numFiles])]).resources = [] := by
  have plain : (Term.ofList (infos.map fun i => .tuple [.atom "backup", .integer i.backupId,
      .integer i.timestamp, .integer i.size, .integer i.numFiles])).resources = [] := by
    apply resources_ofList
    intro t member
    obtain ⟨info, _, rfl⟩ := List.mem_map.mp member
    rfl
  simp [Term.resources, allResources, Term.ok, plain]

/-- Whatever a function returns, it is like this. -/
def Yields {α : Type} (P : α → Prop) (x : NifResult α) : Prop := ∀ a, x = .ok a → P a

theorem yields_pure {α : Type} {P : α → Prop} {a : α} (holds : P a) : Yields P (pure a) := by
  intro a' same
  cases same
  exact holds

theorem yields_bind {α β : Type} {P : β → Prop} {x : NifResult α} {f : α → NifResult β}
    (all : ∀ a, Yields P (f a)) : Yields P (x >>= f) := by
  intro b returns
  obtain ⟨a, _, rest⟩ := bind_ok returns
  exact all a b rest

/-- What a function may make of the resources it was given. -/
def Made.From (given : List Resource) : Made R → Prop
  | .term t => t.resources = []
  | .snapshot _ => .db ∈ given
  | .iterator _ => given ≠ []

theorem yields_term {given : List Resource} {t : Term} (plain : t.resources = []) :
    Yields (Made.From (R := R) given) (return .term t) :=
  yields_pure plain

theorem yields_iterator {given : List Resource} {iter : R.Iter} (some_ : given ≠ []) :
    Yields (Made.From (R := R) given) (return .iterator iter) :=
  yields_pure some_

theorem indexed_mem {α : Type} {xs : List α} {i : Nat} {x : α} (found : indexed xs i = .ok x) :
    x ∈ xs := by
  unfold indexed at found
  split at found
  · rename_i at_
    cases found
    exact List.mem_of_getElem? at_
  · cases found

theorem mem_allResources {ts : List Term} {t : Term} {r : Resource} (member : t ∈ ts)
    (refers : r ∈ t.resources) : r ∈ allResources ts := by
  induction ts with
  | nil => cases member
  | cons head ts ih =>
    rw [allResources, List.mem_append]
    rcases List.mem_cons.mp member with rfl | later
    · exact .inl refers
    · exact .inr (ih later)

theorem given_ne {call : Call} {t : Term} (argument : t ∈ call.arguments)
    (some_ : t.resources ≠ []) : call.given ≠ [] := by
  obtain ⟨r, refers⟩ := List.exists_mem_of_ne_nil _ some_
  exact List.ne_nil_of_mem (List.mem_append.mpr (.inr (mem_allResources argument refers)))

theorem tuple_resources {t : Term} {terms : List Term} {i : Nat} {r : Resource}
    (isTuple : t.getTuple = .ok terms) (found : indexed terms i = .ok (.resource r)) :
    r ∈ t.resources := by
  cases t with
  | tuple elements =>
    cases isTuple
    exact mem_allResources (indexed_mem found) List.mem_cons_self
  | _ => cases isTuple

theorem snapshotOf_resources {resource : Term} {id : Nat} (decodes : snapshotOf resource = .ok id) :
    resource.resources ≠ [] := by
  obtain ⟨terms, isTuple, rest⟩ := bind_ok decodes
  obtain ⟨t, third, isSnapshot⟩ := bind_ok rest
  split at isSnapshot
  · exact List.ne_nil_of_mem (tuple_resources isTuple third)
  · cases isSnapshot

theorem snapshotAndDb_resources {resource : Term} {id : Nat}
    (decodes : snapshotAndDb resource = .ok id) : resource.resources ≠ [] := by
  obtain ⟨terms, isTuple, rest⟩ := bind_ok decodes
  obtain ⟨t, second, isDb⟩ := bind_ok rest
  split at isDb
  · exact List.ne_nil_of_mem (tuple_resources isTuple second)
  · cases isDb

namespace World

def resources (w : World R) : List Resource :=
  .db :: ((List.range w.snapshots.length).map .snapshot ++
    (List.range w.iterators.length).map .iterator)

variable {w v : World R} {given : List Resource}

@[simp] theorem snapshot_mem_resources {id : Nat} :
    .snapshot id ∈ w.resources ↔ id < w.snapshots.length := by
  simp [resources]

@[simp] theorem iterator_mem_resources {id : Nat} :
    .iterator id ∈ w.resources ↔ id < w.iterators.length := by
  simp [resources]

theorem resources_congr (snapshots : v.snapshots.length = w.snapshots.length)
    (iterators : v.iterators.length = w.iterators.length) : v.resources = w.resources := by
  simp only [resources, snapshots, iterators]

/-- The resources that are there stay, new ones are made of what was given, and the reply
refers to what was given or to new ones. -/
structure Passes (given : List Resource) (w : World R) (result : Reply × World R) : Prop where
  kept : ∀ r ∈ w.resources, r ∈ result.2.resources
  made : ∀ r ∈ result.2.resources, r ∉ w.resources → given ≠ []
  told : ∀ r ∈ result.1.resources, r ∈ given ∨ (r ∈ result.2.resources ∧ r ∉ w.resources)

theorem passes_same {reply : Reply} (same : v.resources = w.resources)
    (plain : reply.resources = []) : Passes given w (reply, v) := by
  constructor
  · intro r member
    exact same ▸ member
  · intro r member fresh
    exact absurd (same ▸ member) fresh
  · intro r member
    rw [plain] at member
    cases member

theorem passes_stop (stop : Stop) : Passes given w (stop.reply, w) := by
  cases stop <;> exact passes_same rfl rfl

theorem release_passes {made : Made R} (from_ : made.From given) :
    Passes given w (w.release made) := by
  cases made with
  | term t => exact passes_same rfl from_
  | snapshot snap =>
    constructor
    · intro r member
      cases r with
      | db => exact List.mem_cons_self
      | iterator id =>
        have before := iterator_mem_resources.mp member
        exact iterator_mem_resources.mpr before
      | snapshot id =>
        have before := snapshot_mem_resources.mp member
        rw [snapshot_mem_resources, release, List.length_append]
        omega
    · intro r _ _
      exact List.ne_nil_of_mem from_
    · intro r member
      have cases_ : r = .db ∨ r = .snapshot w.snapshots.length := by
        simpa [release, Reply.resources, Term.resources, allResources, Term.ok] using member
      rcases cases_ with rfl | rfl
      · exact .inl from_
      · exact .inr (by simp [release])
  | iterator iter =>
    constructor
    · intro r member
      cases r with
      | db => exact List.mem_cons_self
      | snapshot id =>
        have before := snapshot_mem_resources.mp member
        exact snapshot_mem_resources.mpr before
      | iterator id =>
        have before := iterator_mem_resources.mp member
        rw [iterator_mem_resources, release, List.length_append]
        omega
    · intro r _ _
      exact from_
    · intro r member
      have same : r = .iterator w.iterators.length := by
        simpa [release, Reply.resources, Term.resources, allResources, Term.ok] using member
      simp only [same]
      exact .inr (by simp [release])

theorem read_passes {body : R.Store → NifResult (Made R)}
    (makes : ∀ db, Yields (Made.From given) (body db)) : Passes given w (w.read body) := by
  unfold read
  split
  · exact passes_same rfl rfl
  · split
    · rename_i made returns
      exact release_passes (makes _ made returns)
    · exact passes_stop _

theorem write_passes {body : R.Store → NifResult (Term × R.Store)}
    (plain : ∀ db, Yields (fun result => result.1.resources = []) (body db)) :
    Passes given w (w.write body) := by
  rcases w.write_cases body with ⟨_, result⟩ |
    ⟨_, ⟨t, db, returns, result⟩ | ⟨_, result⟩ | ⟨_, result⟩⟩
  · simp only [result]
    exact passes_same rfl rfl
  · simp only [result]
    exact passes_same rfl (plain _ _ returns)
  · simp only [result]
    exact passes_same rfl rfl
  · simp only [result]
    exact passes_same rfl rfl

theorem writeShared_passes {body : R.Store → NifResult (Term × R.Store)}
    (plain : ∀ db, Yields (fun result => result.1.resources = []) (body db)) :
    Passes given w (w.writeShared body) := by
  rcases w.writeShared_cases body with ⟨_, result⟩ |
    ⟨_, ⟨t, db, returns, result⟩ | ⟨stop, _, result⟩⟩
  · simp only [result]
    exact passes_same rfl rfl
  · simp only [result]
    exact passes_same rfl (plain _ _ returns)
  · simp only [result]
    exact passes_stop stop

theorem decoded_passes {α : Type} {argument : NifResult α} {body : α → Reply × World R}
    (passes : ∀ value, argument = .ok value → Passes given w (body value)) :
    Passes given w (w.decoded argument body) := by
  cases argument with
  | ok value => exact passes value rfl
  | error stop => exact passes_stop stop

theorem lockSnapshot_passes {id : Nat} {body : R.Snap → NifResult (Made R)}
    (makes : ∀ snap, Yields (Made.From given) (body snap)) :
    Passes given w (w.lockSnapshot id body) := by
  unfold lockSnapshot
  split
  · exact passes_same rfl rfl
  · split
    · exact passes_same rfl rfl
    · split
      · rename_i made returns
        exact release_passes (makes _ made returns)
      · exact passes_same rfl rfl
      · exact passes_same (resources_congr List.length_set rfl) rfl

theorem lockIterator_passes {id : Nat} {body : R.Iter → Term × R.Iter}
    (plain : ∀ iter, (body iter).1.resources = []) : Passes given w (w.lockIterator id body) := by
  unfold lockIterator
  split
  · exact passes_same rfl rfl
  · split
    · exact passes_same rfl rfl
    · exact passes_same (resources_congr rfl List.length_set) (plain _)

theorem readSnapshot_passes {resource : Term} {body : R.Store → R.Snap → NifResult (Made R)}
    (makes : resource.resources ≠ [] → ∀ db snap, Yields (Made.From given) (body db snap)) :
    Passes given w (w.readSnapshot resource body) := by
  apply decoded_passes
  intro id decodes
  split
  · exact passes_same rfl rfl
  · exact lockSnapshot_passes (makes (snapshotAndDb_resources decodes) _)

theorem batch_passes (txs : Term) (db : R.Store) :
    Yields (fun result => result.1.resources = []) (applyBatch rt txs db) := by
  apply yields_bind
  intro iter
  apply yields_bind
  intro batch
  split
  · split
    · exact yields_pure rfl
    · exact yields_pure (resources_error _)
  · exact yields_pure rfl

theorem familyWrite_passes {name : Str} {op : R.Cf → WriteOp R.Cf} (db : R.Store) :
    Yields (fun result => result.1.resources = []) (familyWrite name op db) :=
  yields_bind fun _ => yields_pure (resources_done db _)

theorem iterator_yields {cf : Option R.Cf} {opts : ReadOptions} {mode : Term}
    (makes : given ≠ []) (db : R.Store) :
    Yields (Made.From (R := R) given)
      (do return .iterator (R.iterator db cf (← iteratorMode mode) opts)) :=
  yields_bind fun _ => yields_pure makes

theorem next_passes (resource : Term) : Passes given w (w.next resource) := by
  unfold next
  split
  · apply lockIterator_passes
    intro iter
    split
    · rfl
    · rfl
    · exact resources_error _
  · exact passes_same rfl rfl

theorem iteratorRange_passes {mode first last readOpts : Term} (some_ : given ≠ []) :
    Passes given w (w.iteratorRange mode first last readOpts) :=
  decoded_passes fun _ _ => decoded_passes fun _ _ => read_passes (iterator_yields some_)

theorem createCf_passes {cfName opts : Term} : Passes given w (w.createCf cfName opts) :=
  decoded_passes fun _ _ => decoded_passes fun _ _ => write_passes fun db =>
    yields_bind fun _ => yields_bind fun _ => yields_pure (resources_done db _)

theorem step_passes (rt : Rustler) (w : World R) (call : Call) :
    Passes call.given w (w.step rt call) := by
  cases call with
  | put | delete | merge =>
    simp only [step]
    exact write_passes fun db => yields_pure (resources_done db _)
  | deleteRange =>
    exact write_passes fun db => yields_pure (resources_done db _)
  | writeBatch txs => exact write_passes (batch_passes txs)
  | mergeCf =>
    apply decoded_passes
    intro name _
    apply write_passes
    intro db
    split
    · exact yields_pure (resources_done db _)
    · exact yields_pure (resources_error _)
  | deleteRangeCf =>
    apply decoded_passes
    intro name _
    apply write_passes
    intro db
    split
    · exact yields_pure rfl
    · exact yields_pure (resources_done db _)
  | createCf cfName opts => exact createCf_passes
  | dropCf =>
    exact decoded_passes fun name _ => write_passes fun db => yields_pure (resources_done db _)
  | putCf => exact decoded_passes fun name _ => write_passes familyWrite_passes
  | deleteCf => exact decoded_passes fun name _ => writeShared_passes familyWrite_passes
  | latestSequenceNumber | getDbPath =>
    exact read_passes fun db => yields_term (by simp [Term.resources, allResources, Term.ok])
  | get => exact read_passes fun db => yields_term (resources_found _)
  | multiGet =>
    simp only [step, multiGet]
    exact read_passes fun db => yields_bind fun keys => yields_term (resources_foundAll _)
  | multiGetCf =>
    simp only [step, multiGetCf]
    exact read_passes fun db => yields_bind fun keys => yields_term (resources_foundAll _)
  | keyMayExist => exact read_passes fun db => yields_term rfl
  | getCf =>
    exact decoded_passes fun name _ => read_passes fun db => yields_bind fun cf =>
      yields_term (resources_found _)
  | keyMayExistCf =>
    apply decoded_passes
    intro name _
    apply read_passes
    intro db
    split
    · exact yields_term rfl
    · exact yields_term rfl
  | createCheckpoint path =>
    apply decoded_passes
    intro path _
    apply write_passes
    intro db
    apply yields_bind
    intro _
    split
    · exact yields_pure rfl
    · exact yields_pure (resources_error _)
  | createBackup path =>
    apply decoded_passes
    intro path _
    apply read_passes
    intro db
    apply yields_bind
    intro engine
    split
    · exact yields_term (resources_backups _)
    · exact yields_term (resources_error _)
  | iterator => exact read_passes (iterator_yields (List.cons_ne_nil _ _))
  | iteratorRange => exact iteratorRange_passes (List.cons_ne_nil _ _)
  | prefixIterator => exact read_passes fun db => yields_iterator (List.cons_ne_nil _ _)
  | iteratorCf =>
    apply decoded_passes
    intro name _
    apply read_passes
    intro db
    split
    · exact yields_term rfl
    · exact iterator_yields (List.cons_ne_nil _ _) db
  | prefixIteratorCf =>
    apply decoded_passes
    intro name _
    apply read_passes
    intro db
    split
    · exact yields_term rfl
    · exact yields_iterator (List.cons_ne_nil _ _)
  | snapshot => exact read_passes fun db => yields_pure List.mem_cons_self
  | next resource => exact next_passes resource
  | snapshotGet =>
    exact decoded_passes fun id _ => lockSnapshot_passes fun snap => yields_term (resources_found _)
  | snapshotMultiGet =>
    exact decoded_passes fun id _ => lockSnapshot_passes fun snap => yields_bind fun keys =>
      yields_term (resources_foundAll _)
  | snapshotGetCf =>
    exact decoded_passes fun name _ => readSnapshot_passes fun _ db snap => yields_bind fun cf =>
      yields_term (resources_found _)
  | snapshotMultiGetCf =>
    simp only [step, snapshotMultiGetCf]
    exact readSnapshot_passes fun _ db snap => yields_bind fun keys =>
      yields_term (resources_foundAll _)
  | snapshotIterator resource mode =>
    apply decoded_passes
    intro id decodes
    apply lockSnapshot_passes
    intro snap
    apply yields_bind
    intro m
    exact yields_iterator (given_ne List.mem_cons_self (snapshotOf_resources decodes))
  | snapshotIteratorCf resource cfName mode =>
    apply decoded_passes
    intro name _
    apply readSnapshot_passes
    intro some_ db snap
    split
    · exact yields_term rfl
    · apply yields_bind
      intro m
      exact yields_iterator (given_ne List.mem_cons_self some_)

end World
end ExRocket
