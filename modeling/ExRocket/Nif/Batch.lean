import ExRocket.Nif.Memory
import ExRocket.Nif.Run
import Mathlib.Data.List.Forall2

/-! The elements of a write batch. Each of the six operations has a signature; its arguments
are decoded in order, so an argument that is wrong is refused before one that is missing is
noticed, and a family is looked up last. -/
namespace ExRocket

open Rust

inductive Arg where
  | text | bytes

inductive ArgValue where
  | text (s : Str)
  | bytes (b : Bytes)

def Arg.decode : Arg → Term → NifResult ArgValue
  | .text, t => return .text (← t.decodeString)
  | .bytes, t => return .bytes (← t.decodeBinary)

def signature : String → Option (List Arg)
  | "put" | "merge" => some [.bytes, .bytes]
  | "put_cf" | "merge_cf" => some [.text, .bytes, .bytes]
  | "delete" => some [.bytes]
  | "delete_cf" => some [.text, .bytes]
  | _ => none

def decodeArgs : List Arg → List Term → NifResult (List ArgValue)
  | [], _ => return []
  | _ :: _, [] => throw .panic
  | arg :: sig, t :: ts => do
    let v ← arg.decode t
    let vs ← decodeArgs sig ts
    return v :: vs

variable {R : RocksDb}

def recordsOf (db : R.Store) : String → List ArgValue → NifResult (List (WriteOp R.Cf))
  | "put", [.bytes key, .bytes val] => return [.put none key val]
  | "put_cf", [.text cf, .bytes key, .bytes value] => do
    return [.put (some (← unwrap (R.cfHandle db cf))) key value]
  | "delete", [.bytes key] => return [.delete none key]
  | "delete_cf", [.text cf, .bytes key] => do
    return [.delete (some (← unwrap (R.cfHandle db cf))) key]
  | "merge", [.bytes key, .bytes operand] => return [.merge none key operand]
  | "merge_cf", [.text cf, .bytes key, .bytes operand] => do
    return [.merge (some (← unwrap (R.cfHandle db cf))) key operand]
  | _, _ => return []

theorem decodeArgs_nil (ts : List Term) : decodeArgs [] ts = .ok [] := by
  cases ts <;> rfl

theorem decodeArgs_step {β : Type} (arg : Arg) (sig : List Arg) (ts : List Term)
    (k : List ArgValue → NifResult β) :
    (decodeArgs (arg :: sig) ts >>= k) =
      (indexed ts 0 >>= fun t => arg.decode t >>= fun v =>
        decodeArgs sig ts.tail >>= fun vs => k (v :: vs)) := by
  cases ts with
  | nil => rfl
  | cons t ts =>
    simp only [decodeArgs, bind_assoc, pure_bind, List.tail_cons]
    rfl

theorem indexed_tail {α : Type} (xs : List α) (i : Nat) :
    indexed xs.tail i = indexed xs (i + 1) := by
  cases xs <;> rfl

theorem decode_bytes {β : Type} (t : Term) (k : ArgValue → NifResult β) :
    (Arg.bytes.decode t >>= k) = (t.decodeBinary >>= fun b => k (.bytes b)) := by
  simp only [Arg.decode, bind_assoc, pure_bind]

theorem decode_text {β : Type} (t : Term) (k : ArgValue → NifResult β) :
    (Arg.text.decode t >>= k) = (t.decodeString >>= fun s => k (.text s)) := by
  simp only [Arg.decode, bind_assoc, pure_bind]

/-- The six branches of the loop body come to decoding by signature, then making the record. -/
theorem batchElement_eq (db : R.Store) (name : String) (a : Term) (args : List Term) :
    batchElement db (.tuple (.atom name :: a :: args)) =
      match signature name with
      | none => .ok []
      | some sig => decodeArgs sig (a :: args) >>= recordsOf db name := by
  have arity : (Term.atom name :: a :: args).length ≥ 2 := by simp
  have head : ∀ {β : Type} (k : String → NifResult β),
      ((indexed (Term.atom name :: a :: args) 0 >>= fun t => t.atomToString >>= k)) = k name :=
    fun k => rfl
  simp only [batchElement, Term.getTuple, pure_bind, if_pos arity, head]
  split
  case h_7 => rw [signature] <;> first | rfl | assumption
  all_goals
    simp only [signature, decodeArgs_step, indexed_tail, decode_bytes, decode_text, decodeArgs_nil,
      indexed_succ]
    rfl

def elements : Term → List Term
  | .cons head tail => head :: elements tail
  | _ => []

def isOperation : Term → Bool
  | .tuple (.atom name :: _ :: _) => (signature name).isSome
  | _ => false

/-- The single-operation function for an element, on the element's own arguments. -/
def singleCall : Term → Option Call
  | .tuple (.atom name :: args) =>
    match name, args with
    | "put", key :: val :: _ => some (.put key val)
    | "put_cf", cf :: key :: value :: _ => some (.putCf cf key value)
    | "delete", key :: _ => some (.delete key)
    | "delete_cf", cf :: key :: _ => some (.deleteCf cf key)
    | "merge", key :: operand :: _ => some (.merge key operand)
    | "merge_cf", cf :: key :: operand :: _ => some (.mergeCf cf key operand)
    | _, _ => none
  | _ => none

/-- Where the families are these and the store accepts the record, the call does the same. -/
def Performs (rt : Rustler) (families : Str → Option R.Cf) (call : Call) (op : WriteOp R.Cf) :
    Prop :=
  ∀ (w : World R) (db : R.Store), w.handle.poisoned = false →
    R.cfHandle w.handle.db = families → R.issue w.handle.db op = .ok db →
    w.step rt call = (.term .ok, w.withDb db)

theorem decodeArgs_cons {arg : Arg} {sig : List Arg} {ts : List Term} {vs : List ArgValue}
    (decodes : decodeArgs (arg :: sig) ts = .ok vs) :
    ∃ t ts' v vs', ts = t :: ts' ∧ vs = v :: vs' ∧ arg.decode t = .ok v ∧
      decodeArgs sig ts' = .ok vs' := by
  cases ts with
  | nil => cases decodes
  | cons t ts =>
    obtain ⟨v, head, rest⟩ := bind_ok decodes
    obtain ⟨vs', tail, same⟩ := bind_ok rest
    cases same
    exact ⟨t, ts, v, vs', rfl, rfl, head, tail⟩

theorem decodeArgs_bytes {sig : List Arg} {ts : List Term} {vs : List ArgValue}
    (decodes : decodeArgs (.bytes :: sig) ts = .ok vs) :
    ∃ b ts' vs', ts = .binary b :: ts' ∧ vs = .bytes b :: vs' ∧ decodeArgs sig ts' = .ok vs' := by
  obtain ⟨t, ts', v, vs', rfl, rfl, head, rest⟩ := decodeArgs_cons decodes
  obtain ⟨b, read, same⟩ := bind_ok head
  cases same
  cases t <;> cases read
  exact ⟨b, ts', vs', rfl, rfl, rest⟩

theorem decodeArgs_text {sig : List Arg} {ts : List Term} {vs : List ArgValue}
    (decodes : decodeArgs (.text :: sig) ts = .ok vs) :
    ∃ t s ts' vs', ts = t :: ts' ∧ t.decodeString = .ok s ∧ vs = .text s :: vs' ∧
      decodeArgs sig ts' = .ok vs' := by
  obtain ⟨t, ts', v, vs', rfl, rfl, head, rest⟩ := decodeArgs_cons decodes
  obtain ⟨s, read, same⟩ := bind_ok head
  cases same
  exact ⟨t, s, ts', vs', rfl, read, rfl, rest⟩

theorem decodeArgs_end {ts : List Term} {vs : List ArgValue}
    (decodes : decodeArgs [] ts = .ok vs) : vs = [] := by
  rw [decodeArgs_nil] at decodes
  cases decodes
  rfl

theorem done_ok {db db' : R.Store} {change : Change R.Cf R.Opts}
    (answers : R.answer db change = .ok db') : done db change = (.ok, db') := by
  rw [done, answers]

theorem done_returns {db db' : R.Store} {change : Change R.Cf R.Opts}
    (answers : R.answer db change = .ok db') :
    (pure (done db change) : NifResult (Term × R.Store)) = .ok (.ok, db') := by
  rw [done_ok answers]
  rfl

theorem done_cases {db db' : R.Store} {change : Change R.Cf R.Opts} {t : Term}
    (returns : (pure (done db change) : NifResult (Term × R.Store)) = .ok (t, db')) :
    (t = .ok ∧ R.answer db change = .ok db') ∨
      ∃ e, t = .error e ∧ R.answer db change = .error e ∧ db' = R.refused db change := by
  cases answers : R.answer db change with
  | ok next =>
    rw [done_returns answers] at returns
    cases returns
    exact .inl ⟨rfl, rfl⟩
  | error e =>
    rw [done, answers] at returns
    cases returns
    exact .inr ⟨e, rfl, rfl, rfl⟩

section Performs

variable {rt : Rustler} {families : Str → Option R.Cf}

/-- A call that issues one record under the write guard performs it. -/
theorem write_performs {call : Call} {op : WriteOp R.Cf}
    (step : ∀ w : World R,
      w.step rt call = w.write fun db => return done db (.issue op)) :
    Performs rt families call op := by
  intro w db healthy _ issued
  rw [step]
  apply World.write_ok healthy
  exact done_returns issued

theorem put_performs (key val : Bytes) :
    Performs rt families (.put (.binary key) (.binary val)) (.put none key val) :=
  write_performs fun _ => rfl

theorem delete_performs (key : Bytes) :
    Performs rt families (.delete (.binary key)) (.delete none key) :=
  write_performs fun _ => rfl

theorem merge_performs (key operand : Bytes) :
    Performs rt families (.merge (.binary key) (.binary operand)) (.merge none key operand) :=
  write_performs fun _ => rfl

theorem putCf_performs {cfName : Term} {name : Str} {cf : R.Cf} (key val : Bytes)
    (named : cfName.decodeString = .ok name) (known : families name = some cf) :
    Performs rt families (.putCf cfName (.binary key) (.binary val)) (.put (some cf) key val) := by
  intro w db healthy same issued
  rw [World.step, World.putCf, World.decoded_ok w _ named]
  apply World.write_ok healthy
  rw [same, known]
  exact done_returns issued

theorem deleteCf_performs {cfName : Term} {name : Str} {cf : R.Cf} (key : Bytes)
    (named : cfName.decodeString = .ok name) (known : families name = some cf) :
    Performs rt families (.deleteCf cfName (.binary key)) (.delete (some cf) key) := by
  intro w db healthy same issued
  rw [World.step, World.deleteCf, World.decoded_ok w _ named]
  apply World.writeShared_ok healthy
  rw [same, known]
  exact done_returns issued

theorem mergeCf_performs {cfName : Term} {name : Str} {cf : R.Cf} (key operand : Bytes)
    (named : cfName.decodeString = .ok name) (known : families name = some cf) :
    Performs rt families (.mergeCf cfName (.binary key) (.binary operand))
      (.merge (some cf) key operand) := by
  intro w db healthy same issued
  rw [World.step, World.mergeCf, World.decoded_ok w _ named]
  apply World.write_ok healthy
  simp only [same, known]
  exact done_returns issued

/-- An operation whose arguments are all there and well typed has a call, and makes the
record that the call issues; in a family operation the first argument has to name a family. -/
theorem operation_cases (db : R.Store) {name : String} {sig : List Arg} {args : List Term}
    {vs : List ArgValue} (known : signature name = some sig)
    (decodes : decodeArgs sig args = .ok vs) :
    ∃ call, singleCall (.tuple (.atom name :: args)) = some call ∧
      ((sig.head? = some .bytes ∧ ∃ op, recordsOf db name vs = .ok [op] ∧
          ∀ rt families, Performs rt families call op) ∨
        (sig.head? = some .text ∧ ∃ (t : Term) (s : Str) (op : R.Cf → WriteOp R.Cf),
          args.head? = some t ∧ t.decodeString = .ok s ∧
          recordsOf db name vs = (unwrap (R.cfHandle db s) >>= fun cf => pure [op cf]) ∧
          ∀ rt families cf, families s = some cf → Performs rt families call (op cf))) := by
  unfold signature at known
  split at known
  case h_7 => cases known
  all_goals cases known
  · obtain ⟨key, _, _, rfl, rfl, more⟩ := decodeArgs_bytes decodes
    obtain ⟨val, _, _, rfl, rfl, last⟩ := decodeArgs_bytes more
    cases decodeArgs_end last
    exact ⟨_, rfl, .inl ⟨rfl, _, rfl, fun _ _ => put_performs key val⟩⟩
  · obtain ⟨key, _, _, rfl, rfl, more⟩ := decodeArgs_bytes decodes
    obtain ⟨operand, _, _, rfl, rfl, last⟩ := decodeArgs_bytes more
    cases decodeArgs_end last
    exact ⟨_, rfl, .inl ⟨rfl, _, rfl, fun _ _ => merge_performs key operand⟩⟩
  · obtain ⟨cfName, name, _, _, rfl, named, rfl, keyed⟩ := decodeArgs_text decodes
    obtain ⟨key, _, _, rfl, rfl, more⟩ := decodeArgs_bytes keyed
    obtain ⟨val, _, _, rfl, rfl, last⟩ := decodeArgs_bytes more
    cases decodeArgs_end last
    exact ⟨_, rfl, .inr ⟨rfl, cfName, name, fun cf => .put (some cf) key val, rfl, named, rfl,
      fun _ _ _ => putCf_performs key val named⟩⟩
  · obtain ⟨cfName, name, _, _, rfl, named, rfl, keyed⟩ := decodeArgs_text decodes
    obtain ⟨key, _, _, rfl, rfl, more⟩ := decodeArgs_bytes keyed
    obtain ⟨operand, _, _, rfl, rfl, last⟩ := decodeArgs_bytes more
    cases decodeArgs_end last
    exact ⟨_, rfl, .inr ⟨rfl, cfName, name, fun cf => .merge (some cf) key operand, rfl, named, rfl,
      fun _ _ _ => mergeCf_performs key operand named⟩⟩
  · obtain ⟨key, _, _, rfl, rfl, last⟩ := decodeArgs_bytes decodes
    cases decodeArgs_end last
    exact ⟨_, rfl, .inl ⟨rfl, _, rfl, fun _ _ => delete_performs key⟩⟩
  · obtain ⟨cfName, name, _, _, rfl, named, rfl, keyed⟩ := decodeArgs_text decodes
    obtain ⟨key, _, _, rfl, rfl, last⟩ := decodeArgs_bytes keyed
    cases decodeArgs_end last
    exact ⟨_, rfl, .inr ⟨rfl, cfName, name, fun cf => .delete (some cf) key, rfl, named, rfl,
      fun _ _ _ => deleteCf_performs key named⟩⟩

theorem operation_performs {db : R.Store} {name : String} {sig : List Arg} {args : List Term}
    {vs : List ArgValue} {records : List (WriteOp R.Cf)} (known : signature name = some sig)
    (decodes : decodeArgs sig args = .ok vs) (made : recordsOf db name vs = .ok records) :
    ∃ call op, singleCall (.tuple (.atom name :: args)) = some call ∧ records = [op] ∧
      Performs rt (R.cfHandle db) call op := by
  obtain ⟨call, single, plain | family⟩ := operation_cases db known decodes
  · obtain ⟨_, op, one, performs⟩ := plain
    rw [one] at made
    cases made
    exact ⟨call, op, single, rfl, performs _ _⟩
  · obtain ⟨_, t, s, op, _, _, one, performs⟩ := family
    rw [one] at made
    obtain ⟨cf, found, same⟩ := bind_ok made
    cases same
    exact ⟨call, op cf, single, rfl, performs _ _ cf (unwrap_ok found)⟩

theorem batchElement_tuple {db : R.Store} {head a : Term} {args : List Term}
    {records : List (WriteOp R.Cf)}
    (accepted : batchElement db (.tuple (head :: a :: args)) = .ok records) :
    ∃ name, head = .atom name := by
  cases head <;> first | cases accepted | exact ⟨_, rfl⟩

/-- An element that is accepted either is no operation and adds nothing, or adds the one
record that its single-operation function issues. -/
theorem element_performs (rt : Rustler) {db : R.Store} {elem : Term} {records : List (WriteOp R.Cf)}
    (accepted : batchElement db elem = .ok records) :
    (isOperation elem = false ∧ records = []) ∨
      (isOperation elem = true ∧ ∃ call op, singleCall elem = some call ∧ records = [op] ∧
        Performs rt (R.cfHandle db) call op) := by
  cases elem with
  | tuple terms =>
    rcases terms with _ | ⟨head, _ | ⟨a, args⟩⟩
    · cases accepted
      exact .inl ⟨rfl, rfl⟩
    · cases accepted
      exact .inl ⟨by cases head <;> rfl, rfl⟩
    · obtain ⟨name, rfl⟩ := batchElement_tuple accepted
      rw [batchElement_eq] at accepted
      cases known : signature name with
      | none =>
        rw [known] at accepted
        cases accepted
        exact .inl ⟨by simp [isOperation, known], rfl⟩
      | some sig =>
        rw [known] at accepted
        obtain ⟨vs, decodes, made⟩ := bind_ok accepted
        exact .inr ⟨by simp [isOperation, known], operation_performs known decodes made⟩
  | _ => cases accepted

theorem batchRecords_cons (rt : Rustler) (db : R.Store) (head tail : Term)
    (batch : List (WriteOp R.Cf)) :
    batchRecords rt db (.cons head tail) batch =
      (batchElement db head >>= fun records => batchRecords rt db tail (batch ++ records)) := by
  simp only [batchRecords, Term.forEach, bind_assoc, pure_bind]

theorem batchRecords_tail {db : R.Store} {txs : Term} {batch full : List (WriteOp R.Cf)}
    (last : ∀ head tail, txs ≠ .cons head tail)
    (accepted : batchRecords rt db txs batch = .ok full) : full = batch := by
  cases txs with
  | cons head tail => exact absurd rfl (last head tail)
  | nil =>
    cases accepted
    rfl
  | _ =>
    obtain ⟨_, _, same⟩ := bind_ok accepted
    cases same
    rfl

/-- The records of an accepted list are those of its operations, in order. -/
theorem batchRecords_performs {db : R.Store} {txs : Term} {batch full : List (WriteOp R.Cf)}
    (accepted : batchRecords rt db txs batch = .ok full) :
    ∃ calls ops, full = batch ++ ops ∧
      ((elements txs).filter isOperation).map singleCall = calls.map some ∧
      List.Forall₂ (Performs rt (R.cfHandle db)) calls ops := by
  induction txs using elements.induct generalizing batch with
  | case1 head tail ih =>
    rw [batchRecords_cons] at accepted
    obtain ⟨records, first, rest⟩ := bind_ok accepted
    obtain ⟨calls, ops, whole, single, performs⟩ := ih rest
    rcases element_performs rt first with ⟨other, rfl⟩ | ⟨operation, call, op, one, rfl, does⟩
    · refine ⟨calls, ops, by simpa using whole, ?_, performs⟩
      rw [elements, List.filter_cons_of_neg (by simp [other]), single]
    · refine ⟨call :: calls, op :: ops, by simpa using whole, ?_, .cons does performs⟩
      rw [elements, List.filter_cons_of_pos operation, List.map_cons, one, single, List.map_cons]
  | case2 txs last =>
    have same := batchRecords_tail last accepted
    have empty : elements txs = [] := by
      unfold elements
      split
      · exact absurd rfl (last _ _)
      · rfl
    exact ⟨[], [], by simpa using same, by simp [empty], .nil⟩

/-- No family, or one that the store has. -/
def KnownCf (db : R.Store) (cf : Option R.Cf) : Prop :=
  ∀ c, cf = some c → ∃ name, R.cfHandle db name = some c

theorem knownCf_none (db : R.Store) : KnownCf db none :=
  fun _ impossible => (by cases impossible)

theorem knownCf_some {db : R.Store} {name : Str} {cf : R.Cf}
    (known : R.cfHandle db name = some cf) : KnownCf db (some cf) := by
  intro c same
  cases same
  exact ⟨name, known⟩

/-- A single record, in a family that there is. -/
def Plain (db : R.Store) (op : WriteOp R.Cf) : Prop := op.ranged = false ∧ KnownCf db op.family

theorem recordsOf_plain {db : R.Store} {name : String} {vs : List ArgValue}
    {records : List (WriteOp R.Cf)} (made : recordsOf db name vs = .ok records) :
    ∀ op ∈ records, Plain db op := by
  have plain : ∀ op : WriteOp R.Cf, op.ranged = false → op.family = none →
      ∀ op' ∈ [op], Plain db op' := by
    intro op single none op' member
    rw [List.mem_singleton.mp member, Plain, none]
    exact ⟨single, knownCf_none db⟩
  have family : ∀ (s : Str) (op : R.Cf → WriteOp R.Cf),
      (∀ cf, (op cf).ranged = false ∧ (op cf).family = some cf) →
      (unwrap (R.cfHandle db s) >>= fun cf => (pure [op cf] : NifResult _)) = .ok records →
      ∀ op' ∈ records, Plain db op' := by
    intro s op inCf made op' member
    obtain ⟨cf, found, same⟩ := bind_ok made
    cases same
    rw [List.mem_singleton.mp member, Plain, (inCf cf).2]
    exact ⟨(inCf cf).1, knownCf_some (unwrap_ok found)⟩
  unfold recordsOf at made
  split at made
  · cases made
    exact plain _ rfl rfl
  · exact family _ _ (fun _ => ⟨rfl, rfl⟩) made
  · cases made
    exact plain _ rfl rfl
  · exact family _ _ (fun _ => ⟨rfl, rfl⟩) made
  · cases made
    exact plain _ rfl rfl
  · exact family _ _ (fun _ => ⟨rfl, rfl⟩) made
  · cases made
    simp

theorem batchElement_plain {db : R.Store} {elem : Term} {records : List (WriteOp R.Cf)}
    (accepted : batchElement db elem = .ok records) : ∀ op ∈ records, Plain db op := by
  cases elem with
  | tuple terms =>
    rcases terms with _ | ⟨head, _ | ⟨a, args⟩⟩
    · cases accepted
      simp
    · cases accepted
      simp
    · obtain ⟨name, rfl⟩ := batchElement_tuple accepted
      rw [batchElement_eq] at accepted
      cases known : signature name with
      | none =>
        rw [known] at accepted
        cases accepted
        simp
      | some sig =>
        rw [known] at accepted
        obtain ⟨vs, _, made⟩ := bind_ok accepted
        exact recordsOf_plain made
  | _ => cases accepted

theorem batchRecords_plain {db : R.Store} {txs : Term} {batch full : List (WriteOp R.Cf)}
    (accepted : batchRecords rt db txs batch = .ok full)
    (plain : ∀ op ∈ batch, Plain db op) : ∀ op ∈ full, Plain db op := by
  induction txs using elements.induct generalizing batch with
  | case1 head tail ih =>
    rw [batchRecords_cons] at accepted
    obtain ⟨records, first, rest⟩ := bind_ok accepted
    exact ih rest (List.forall_mem_append.mpr ⟨plain, batchElement_plain first⟩)
  | case2 txs last =>
    rw [batchRecords_tail last accepted]
    exact plain

/-- Calls that perform records the store accepts one by one all reply ok and end where the
store ends. -/
theorem run_performs {calls : List Call} {ops : List (WriteOp R.Cf)}
    (performs : List.Forall₂ (Performs rt families) calls ops) {w : World R} {db : R.Store}
    (healthy : w.handle.poisoned = false) (same : R.cfHandle w.handle.db = families)
    (issued : ops.foldlM R.issue w.handle.db = .ok db) :
    w.run rt calls = (calls.map fun _ => .term .ok, w.withDb db) := by
  induction performs generalizing w with
  | nil =>
    cases issued
    rfl
  | @cons call op calls ops does _ ih =>
    rw [List.foldlM_cons] at issued
    obtain ⟨mid, first, issued'⟩ := bind_ok issued
    have families' : R.cfHandle mid = families := (R.issue_families _ _ _ first).trans same
    have step := does w mid healthy same first
    have rest := ih (w := w.withDb mid) healthy families' issued'
    rw [World.run_cons, step, rest]
    rfl

theorem decodeList_ok {txs iter : Term} (decodes : txs.decodeList = .ok iter) : iter = txs := by
  cases txs <;> cases decodes <;> rfl

theorem applyBatch_ok {txs : Term} {db db' : R.Store} {t : Term}
    (returns : applyBatch rt txs db = .ok (t, db')) :
    ∃ batch, batchRecords rt db txs [] = .ok batch ∧
      ((t = .tuple [.ok, .integer batch.length] ∧
          (batch = [] ∧ db' = db ∨ batch ≠ [] ∧ R.write db batch = .ok db')) ∨
        ∃ e, t = .error e ∧ batch ≠ [] ∧ R.write db batch = .error e ∧
          db' = R.refused db (.write batch)) := by
  obtain ⟨iter, list, rest⟩ := bind_ok returns
  obtain ⟨batch, records, reply⟩ := bind_ok rest
  rw [decodeList_ok list] at records
  refine ⟨batch, records, ?_⟩
  split at reply
  · rename_i long
    have some : batch ≠ [] := List.ne_nil_of_length_pos long
    split at reply
    · rename_i written
      cases reply
      exact .inl ⟨rfl, .inr ⟨some, written⟩⟩
    · rename_i refuses
      cases reply
      exact .inr ⟨_, rfl, some, refuses, rfl⟩
  · rename_i short
    cases reply
    have empty : batch = [] := List.eq_nil_of_length_eq_zero (by omega)
    subst empty
    exact .inl ⟨rfl, .inl ⟨rfl, rfl⟩⟩

theorem error_not_counted (e : Str) (n : Int) : Term.error e ≠ .tuple [.ok, .integer n] := by
  intro same
  injection same with same
  injection same with head
  injection head with name
  exact absurd name (by decide)

end Performs

theorem writeBatch_cases (rt : Rustler) (w : World R) (txs : Term) :
    (∃ batch db, w.handle.poisoned = false ∧ batchRecords rt w.handle.db txs [] = .ok batch ∧
      (batch = [] ∧ db = w.handle.db ∨ batch ≠ [] ∧ R.write w.handle.db batch = .ok db) ∧
      w.writeBatch rt txs = (.term (.tuple [.ok, .integer batch.length]), w.withDb db)) ∨
    ((∀ n, (w.writeBatch rt txs).1 ≠ .term (.tuple [.ok, .integer n])) ∧
      ((w.writeBatch rt txs).2.handle.db = w.handle.db ∨
        ∃ batch e, batchRecords rt w.handle.db txs [] = .ok batch ∧
          R.write w.handle.db batch = .error e ∧
          (w.writeBatch rt txs).2.handle.db = R.refused w.handle.db (.write batch))) := by
  rw [World.writeBatch]
  rcases w.write_cases (applyBatch rt txs) with ⟨_, result⟩ |
    ⟨healthy, ⟨t, db, returns, result⟩ | ⟨_, result⟩ | ⟨_, result⟩⟩
  · rw [result]
    exact .inr ⟨fun n impossible => (by cases impossible), .inl rfl⟩
  · rw [result]
    obtain ⟨batch, records, ⟨rfl, written⟩ | ⟨e, rfl, _, refuses, rfl⟩⟩ := applyBatch_ok returns
    · exact .inl ⟨batch, db, healthy, records, written, rfl⟩
    · refine .inr ⟨fun n same => ?_, .inr ⟨batch, e, records, refuses, rfl⟩⟩
      injection same with same
      exact absurd same (error_not_counted e n)
  · rw [result]
    exact .inr ⟨fun n impossible => (by cases impossible), .inl rfl⟩
  · rw [result]
    exact .inr ⟨fun n impossible => (by cases impossible), .inl rfl⟩

/-- A batch that is counted is the run of its operations. -/
theorem writeBatch_counted (rt : Rustler) (inOrder : R.BatchInOrder) {w : World R} {txs : Term}
    {n : Int} (counted : (w.writeBatch rt txs).1 = .term (.tuple [.ok, .integer n])) :
    ∃ calls, ((elements txs).filter isOperation).map singleCall = calls.map some ∧
      w.run rt calls = (calls.map fun _ => .term .ok, (w.writeBatch rt txs).2) ∧
      n = calls.length := by
  rcases writeBatch_cases rt w txs with
    ⟨batch, db, healthy, records, written, result⟩ | ⟨uncounted, _⟩
  · rw [result] at counted
    cases counted
    obtain ⟨calls, ops, whole, single, performs⟩ := batchRecords_performs records
    rw [List.nil_append] at whole
    subst whole
    have issued : batch.foldlM R.issue w.handle.db = .ok db := by
      rcases written with ⟨rfl, rfl⟩ | ⟨_, written⟩
      · rfl
      · exact inOrder _ _ _ written
    refine ⟨calls, single, ?_, by rw [performs.length_eq]⟩
    rw [result]
    exact run_performs performs healthy rfl issued
  · exact absurd counted (uncounted n)

/-- A batch that is not counted leaves the store, for it holds no range. -/
theorem writeBatch_uncounted (rt : Rustler) (whole : R.BatchWhole) {w : World R} {txs : Term}
    (uncounted : ∀ n, (w.writeBatch rt txs).1 ≠ .term (.tuple [.ok, .integer n])) :
    (w.writeBatch rt txs).2.handle.db = w.handle.db := by
  rcases writeBatch_cases rt w txs with ⟨batch, db, _, _, _, result⟩ |
    ⟨_, same | ⟨batch, e, records, refuses, left⟩⟩
  · rw [result] at uncounted
    exact absurd rfl (uncounted _)
  · exact same
  · rw [left]
    have single := batchRecords_plain records (by simp)
    exact whole _ _ e (fun op member => (single op member).1) refuses

theorem writeBatch_atomic (rt : Rustler) (inOrder : R.BatchInOrder) (whole : R.BatchWhole)
    (w : World R) (txs : Term) :
    (∀ n, (w.writeBatch rt txs).1 = .term (.tuple [.ok, .integer n]) →
      ∃ calls, ((elements txs).filter isOperation).map singleCall = calls.map some ∧
        w.run rt calls = (calls.map fun _ => .term .ok, (w.writeBatch rt txs).2) ∧
        n = calls.length) ∧
    ((∀ n, (w.writeBatch rt txs).1 ≠ .term (.tuple [.ok, .integer n])) →
      (w.writeBatch rt txs).2.handle.db = w.handle.db) :=
  ⟨fun _ counted => writeBatch_counted rt inOrder counted, writeBatch_uncounted rt whole⟩

theorem writeBatch_atomic_put_delete :
    ∃ calls, ((elements (Term.ofList [.tuple [.atom "put", .binary [97], .binary [49]],
          .tuple [.atom "noop"], .tuple [.atom "delete", .binary [97]]])).filter
        isOperation).map singleCall = calls.map some ∧
      Memory.world.run Memory.rustler calls =
        (calls.map fun _ => .term .ok,
          (Memory.world.writeBatch Memory.rustler
            (Term.ofList [.tuple [.atom "put", .binary [97], .binary [49]],
              .tuple [.atom "noop"], .tuple [.atom "delete", .binary [97]]])).2) ∧
      (2 : Int) = calls.length :=
  (writeBatch_atomic Memory.rustler Memory.batchInOrder Memory.batchWhole Memory.world _).1 2 rfl

end ExRocket
