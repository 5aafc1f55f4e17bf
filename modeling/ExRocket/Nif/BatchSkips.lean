import ExRocket.Nif.Batch

/-! The elements that a write batch passes over. A tuple of fewer than two components, or
one that starts with another atom, adds no record and is not counted; a tuple that starts
with no atom is refused, and with it the whole list. -/
namespace ExRocket

open Rust

def passedOver : Term → Bool
  | .tuple (.atom name :: _ :: _) => (signature name).isNone
  | .tuple [] | .tuple [_] => true
  | _ => false

variable {rt : Rustler} {R : RocksDb}

theorem passedOver_adds_nothing (db : R.Store) {elem : Term} (skipped : passedOver elem = true) :
    batchElement db elem = .ok [] := by
  unfold passedOver at skipped
  split at skipped
  · rename_i name a args
    have unknown : signature name = none := Option.isNone_iff_eq_none.mp skipped
    rw [batchElement_eq, unknown]
  · rfl
  · rfl
  · cases skipped

/-- What is accepted is one of the six operations or passed over. -/
theorem accepted_cases {db : R.Store} {elem : Term} {records : List (WriteOp R.Cf)}
    (accepted : batchElement db elem = .ok records) :
    isOperation elem = true ∨ passedOver elem = true := by
  cases elem with
  | tuple terms =>
    rcases terms with _ | ⟨head, _ | ⟨a, args⟩⟩
    · exact .inr rfl
    · cases head <;> exact .inr rfl
    · obtain ⟨name, rfl⟩ := batchElement_tuple accepted
      cases known : signature name <;> simp [isOperation, passedOver, known]
  | _ => cases accepted

@[simp] theorem elements_ofList (txs : List Term) : elements (.ofList txs) = txs := by
  induction txs with
  | nil => rfl
  | cons elem txs ih => rw [Term.ofList, elements, ih]

@[simp] theorem decodeList_ofList (txs : List Term) :
    (Term.ofList txs).decodeList = .ok (.ofList txs) := by
  cases txs <;> rfl

theorem batchRecords_passing (db : R.Store) (txs : List Term) (batch : List (WriteOp R.Cf)) :
    batchRecords rt db (.ofList (txs.filter fun elem => !passedOver elem)) batch =
      batchRecords rt db (.ofList txs) batch := by
  induction txs generalizing batch with
  | nil => rfl
  | cons elem txs ih =>
    cases skipped : passedOver elem with
    | true =>
      have adds := passedOver_adds_nothing db skipped
      rw [List.filter_cons_of_neg (by simp [skipped]), ih, Term.ofList, batchRecords_cons, adds]
      simp [bind, Except.bind]
    | false =>
      rw [List.filter_cons_of_pos (by simp [skipped]), Term.ofList, Term.ofList,
        batchRecords_cons, batchRecords_cons]
      simp only [ih]

theorem applyBatch_passing (txs : List Term) :
    applyBatch (R := R) rt (.ofList (txs.filter fun elem => !passedOver elem)) =
      applyBatch rt (.ofList txs) := by
  funext db
  simp only [applyBatch, decodeList_ofList, bind, Except.bind, batchRecords_passing]

theorem batchRecords_accepts {db : R.Store} {txs : List Term} {batch full : List (WriteOp R.Cf)}
    (accepted : batchRecords rt db (.ofList txs) batch = .ok full) :
    ∀ elem ∈ txs, isOperation elem = true ∨ passedOver elem = true := by
  induction txs generalizing batch with
  | nil =>
    intro elem member
    cases member
  | cons first txs ih =>
    rw [Term.ofList, batchRecords_cons] at accepted
    obtain ⟨records, here, rest⟩ := bind_ok accepted
    intro elem member
    rcases List.mem_cons.mp member with rfl | later
    · exact accepted_cases here
    · exact ih rest elem later

/-- A batch that is counted applies its operations in order and counts them; what it passes
over changes nothing. An element that is neither makes the call fail. -/
theorem writeBatch_passes_over (rt : Rustler) (inOrder : R.BatchInOrder) (w : World R)
    (txs : List Term) :
    (∀ n, (w.writeBatch rt (.ofList txs)).1 = .term (.tuple [.ok, .integer n]) →
      (∀ elem ∈ txs, isOperation elem = true ∨ passedOver elem = true) ∧
      ∃ calls, (txs.filter isOperation).map singleCall = calls.map some ∧
        w.run rt calls = (calls.map fun _ => .term .ok, (w.writeBatch rt (.ofList txs)).2) ∧
        n = calls.length) ∧
    w.writeBatch rt (.ofList (txs.filter fun elem => !passedOver elem)) =
      w.writeBatch rt (.ofList txs) ∧
    ((∃ elem ∈ txs, isOperation elem = false ∧ passedOver elem = false) →
      (∀ n, (w.writeBatch rt (.ofList txs)).1 ≠ .term (.tuple [.ok, .integer n])) ∧
        (w.writeBatch rt (.ofList txs)).2.handle.db = w.handle.db) := by
  have supported : ∀ n, (w.writeBatch rt (.ofList txs)).1 = .term (.tuple [.ok, .integer n]) →
      ∀ elem ∈ txs, isOperation elem = true ∨ passedOver elem = true := by
    intro n counted
    rcases writeBatch_cases rt w (.ofList txs) with ⟨_, _, _, records, _⟩ | ⟨uncounted, _⟩
    · exact batchRecords_accepts records
    · exact absurd counted (uncounted n)
  refine ⟨?_, ?_, ?_⟩
  · intro n counted
    refine ⟨supported n counted, ?_⟩
    simpa using writeBatch_counted rt inOrder counted
  · rw [World.writeBatch, applyBatch_passing]
    rfl
  · rintro ⟨elem, member, foreign, kept⟩
    have uncounted : ∀ n, (w.writeBatch rt (.ofList txs)).1 ≠
        .term (.tuple [.ok, .integer n]) := by
      intro n counted
      rcases supported n counted elem member with operation | skipped
      · simp [foreign] at operation
      · simp [kept] at skipped
    refine ⟨uncounted, ?_⟩
    rcases writeBatch_cases rt w (.ofList txs) with ⟨batch, _, _, _, _, result⟩ |
      ⟨_, same | ⟨_, _, records, _⟩⟩
    · rw [result] at uncounted
      exact absurd rfl (uncounted _)
    · exact same
    · rcases batchRecords_accepts records elem member with operation | skipped
      · simp [foreign] at operation
      · simp [kept] at skipped

theorem writeBatch_passes_over_unknown :
    ∃ calls, ([Term.tuple [.atom "delete_range", .binary [97], .binary [98]],
        .tuple [.atom "put", .binary [97], .binary [49]]].filter isOperation).map singleCall =
          calls.map some ∧
      Memory.world.run Memory.rustler calls = (calls.map fun _ => .term .ok,
        (Memory.world.writeBatch Memory.rustler
          (.ofList [.tuple [.atom "delete_range", .binary [97], .binary [98]],
            .tuple [.atom "put", .binary [97], .binary [49]]])).2) ∧
      (1 : Int) = calls.length :=
  ((writeBatch_passes_over Memory.rustler Memory.batchInOrder Memory.world
    [.tuple [.atom "delete_range", .binary [97], .binary [98]],
      .tuple [.atom "put", .binary [97], .binary [49]]]).1 1 rfl).2

/- delete_range is no batch operation, and the list that holds only it is counted as 0. -/
theorem writeBatch_drops :
    ¬ ∀ (w : World Memory.rocksDb) (txs : List Term), (∀ elem ∈ txs, ∃ ts, elem = .tuple ts) →
      (∀ n, (w.writeBatch Memory.rustler (.ofList txs)).1 = .term (.tuple [.ok, .integer n]) →
        n = txs.length) ∧
      ((∃ elem ∈ txs, isOperation elem = false) →
        ∀ n, (w.writeBatch Memory.rustler (.ofList txs)).1 ≠ .term (.tuple [.ok, .integer n])) := by
  intro keeps
  have counts := (keeps Memory.world [.tuple [.atom "delete_range", .binary [97], .binary [98]]]
    (by simp)).1 0 rfl
  cases counts

end ExRocket
