import ExRocket.Nif.Batch

/-! When the loop over a write batch panics: at an operation with missing arguments or an
unknown family, unless an element before it is refused. -/
namespace ExRocket

open Rust

variable {rt : Rustler} {R : RocksDb}

def Arg.Accepts (arg : Arg) (t : Term) : Prop := ∃ v, arg.decode t = .ok v

def UnknownFamily (db : R.Store) (sig : List Arg) (args : List Term) : Prop :=
  sig.head? = some .text ∧
    ∃ t s, args.head? = some t ∧ t.decodeString = .ok s ∧ R.cfHandle db s = none

/-- An element that is turned down with badarg. -/
def ElementRefused : Term → Prop
  | .tuple (.atom name :: a :: args) =>
    ∃ sig, signature name = some sig ∧ ∃ p ∈ sig.zip (a :: args), ¬ p.1.Accepts p.2
  | .tuple (_ :: _ :: _) => True
  | .tuple _ => False
  | _ => True

/-- An operation with well typed arguments of which the last are missing, or whose family
is unknown. -/
def ElementPanics (db : R.Store) : Term → Prop
  | .tuple (.atom name :: a :: args) =>
    ∃ sig, signature name = some sig ∧ (∀ p ∈ sig.zip (a :: args), p.1.Accepts p.2) ∧
      ((a :: args).length < sig.length ∨ UnknownFamily db sig (a :: args))
  | _ => False

/-- The elements before the first one that is refused, with the tail if none is. -/
def ElementsPanic (rt : Rustler) (db : R.Store) : Term → Prop
  | .cons elem rest =>
    ElementPanics db elem ∨ (¬ ElementRefused elem ∧ ElementsPanic rt db rest)
  | .nil => False
  | _ => rt.improperTail = .error .panic

def BatchPanics (rt : Rustler) (db : R.Store) (txs : Term) : Prop :=
  (∃ iter, txs.decodeList = .ok iter) ∧ ElementsPanic rt db txs

theorem decodeBinary_error {t : Term} {stop : Stop} (fails : t.decodeBinary = .error stop) :
    stop = .badarg := by
  cases t <;> cases fails <;> rfl

theorem decodeString_error {t : Term} {stop : Stop} (fails : t.decodeString = .error stop) :
    stop = .badarg := by
  cases t with
  | binary bytes =>
    rw [Term.decodeString] at fails
    split at fails <;> cases fails
    rfl
  | _ =>
    cases fails
    rfl

theorem decode_error {arg : Arg} {t : Term} {stop : Stop} (fails : arg.decode t = .error stop) :
    stop = .badarg := by
  cases arg with
  | text =>
    rcases bind_error_iff.mp fails with unread | ⟨_, _, impossible⟩
    · exact decodeString_error unread
    · cases impossible
  | bytes =>
    rcases bind_error_iff.mp fails with unread | ⟨_, _, impossible⟩
    · exact decodeBinary_error unread
    · cases impossible

theorem decodeArgs_error_cons {arg : Arg} {sig : List Arg} {t : Term} {ts : List Term}
    {stop : Stop} :
    decodeArgs (arg :: sig) (t :: ts) = .error stop ↔
      (¬ arg.Accepts t ∧ stop = .badarg) ∨
        (arg.Accepts t ∧ decodeArgs sig ts = .error stop) := by
  have tail : ∀ v, (decodeArgs sig ts >>= fun vs => (pure (v :: vs) : NifResult _)) = .error stop ↔
      decodeArgs sig ts = .error stop := by
    intro v
    simp [bind_error_iff, pure, Except.pure]
  rw [decodeArgs, bind_error_iff]
  simp only [tail]
  cases first : arg.decode t with
  | error e =>
    have refused : ¬ arg.Accepts t := by
      rintro ⟨v, accepts⟩
      rw [first] at accepts
      cases accepts
    have kind := decode_error first
    subst kind
    simp [refused, eq_comm]
  | ok v =>
    have accepts : arg.Accepts t := ⟨v, first⟩
    simp [accepts]

theorem decodeArgs_panic_iff (sig : List Arg) (ts : List Term) :
    decodeArgs sig ts = .error .panic ↔
      (∀ p ∈ sig.zip ts, p.1.Accepts p.2) ∧ ts.length < sig.length := by
  induction sig generalizing ts with
  | nil => simp [decodeArgs_nil]
  | cons arg sig ih =>
    cases ts with
    | nil => simp [decodeArgs, throw, throwThe, MonadExceptOf.throw]
    | cons t ts =>
      rw [decodeArgs_error_cons, ih]
      simp [and_assoc]

theorem decodeArgs_badarg_iff (sig : List Arg) (ts : List Term) :
    decodeArgs sig ts = .error .badarg ↔ ∃ p ∈ sig.zip ts, ¬ p.1.Accepts p.2 := by
  induction sig generalizing ts with
  | nil => simp [decodeArgs_nil]
  | cons arg sig ih =>
    cases ts with
    | nil => simp [decodeArgs, throw, throwThe, MonadExceptOf.throw]
    | cons t ts =>
      rw [decodeArgs_error_cons, ih]
      by_cases accepts : arg.Accepts t <;> simp [accepts]

theorem recordsOf_error_iff (db : R.Store) (stop : Stop) {name : String} {sig : List Arg}
    {args : List Term} {vs : List ArgValue} (known : signature name = some sig)
    (decodes : decodeArgs sig args = .ok vs) :
    recordsOf db name vs = .error stop ↔ stop = .panic ∧ UnknownFamily db sig args := by
  obtain ⟨_, _, plain | family⟩ := operation_cases db known decodes
  · obtain ⟨bytes, op, made, _⟩ := plain
    simp [made, UnknownFamily, bytes]
  · obtain ⟨text, t, s, op, first, named, made, _⟩ := family
    have same : UnknownFamily db sig args ↔ R.cfHandle db s = none := by
      simp [UnknownFamily, text, first, named]
    rw [made, same]
    cases R.cfHandle db s with
    | none => simp [unwrap, bind, Except.bind, throw, throwThe, MonadExceptOf.throw, eq_comm]
    | some cf => simp [unwrap, bind, Except.bind, pure, Except.pure]

section Operation

variable (db : R.Store) {name : String} {sig : List Arg} (a : Term) (args : List Term)

theorem operation_badarg_iff (known : signature name = some sig) :
    (decodeArgs sig (a :: args) >>= recordsOf db name) = .error .badarg ↔
      ∃ p ∈ sig.zip (a :: args), ¬ p.1.Accepts p.2 := by
  rw [bind_error_iff, ← decodeArgs_badarg_iff]
  constructor
  · rintro (refused | ⟨vs, decodes, made⟩)
    · exact refused
    · cases ((recordsOf_error_iff db .badarg known decodes).mp made).1
  · exact .inl

theorem operation_panic_iff (known : signature name = some sig) :
    (decodeArgs sig (a :: args) >>= recordsOf db name) = .error .panic ↔
      (∀ p ∈ sig.zip (a :: args), p.1.Accepts p.2) ∧
        ((a :: args).length < sig.length ∨ UnknownFamily db sig (a :: args)) := by
  have panics := decodeArgs_panic_iff sig (a :: args)
  have refuses := decodeArgs_badarg_iff sig (a :: args)
  rw [bind_error_iff]
  cases decodes : decodeArgs sig (a :: args) with
  | error stop =>
    rw [decodes] at panics refuses
    cases stop with
    | badarg =>
      obtain ⟨p, member, rejects⟩ := refuses.mp rfl
      constructor
      · rintro (impossible | ⟨vs, impossible, _⟩) <;> cases impossible
      · exact fun ⟨accepts, _⟩ => absurd (accepts p member) rejects
    | panic =>
      obtain ⟨accepts, short⟩ := panics.mp rfl
      exact ⟨fun _ => ⟨accepts, .inl short⟩, fun _ => .inl rfl⟩
  | ok vs =>
    rw [decodes] at panics refuses
    have accepts : ∀ p ∈ sig.zip (a :: args), p.1.Accepts p.2 := by
      intro p member
      by_contra rejects
      cases refuses.mpr ⟨p, member, rejects⟩
    have long : ¬ (a :: args).length < sig.length := by
      intro short
      cases panics.mpr ⟨accepts, short⟩
    have made := recordsOf_error_iff db .panic known decodes
    constructor
    · rintro (impossible | ⟨vs', same, fails⟩)
      · cases impossible
      · cases same
        exact ⟨accepts, .inr (made.mp fails).2⟩
    · rintro ⟨_, short | unknown⟩
      · exact absurd short long
      · exact .inr ⟨vs, rfl, made.mpr ⟨rfl, unknown⟩⟩

end Operation

theorem batchElement_error_iff (db : R.Store) (elem : Term) :
    (batchElement db elem = .error .panic ↔ ElementPanics db elem) ∧
      (batchElement db elem = .error .badarg ↔ ElementRefused elem) := by
  cases elem with
  | tuple terms =>
    rcases terms with _ | ⟨head, _ | ⟨a, args⟩⟩
    · exact ⟨⟨nofun, nofun⟩, ⟨nofun, nofun⟩⟩
    · cases head <;> exact ⟨⟨nofun, nofun⟩, ⟨nofun, nofun⟩⟩
    · cases head with
      | atom name =>
        rw [batchElement_eq]
        cases known : signature name with
        | none => simp [ElementPanics, ElementRefused, known]
        | some sig =>
          have panics := operation_panic_iff db a args known
          have refuses := operation_badarg_iff db a args known
          simp only [ElementPanics, ElementRefused, known, Option.some.injEq, exists_eq_left']
          exact ⟨panics, refuses⟩
      | _ => exact ⟨⟨nofun, nofun⟩, ⟨fun _ => trivial, fun _ => rfl⟩⟩
  | _ => exact ⟨⟨nofun, nofun⟩, ⟨fun _ => trivial, fun _ => rfl⟩⟩

/-- The loop panics at the first element that does, unless one is refused before it. -/
theorem batchRecords_panic_iff (db : R.Store) (txs : Term) (batch : List (WriteOp R.Cf)) :
    batchRecords rt db txs batch = .error .panic ↔ ElementsPanic rt db txs := by
  induction txs using elements.induct generalizing batch with
  | case1 head tail ih =>
    obtain ⟨panics, refuses⟩ := batchElement_error_iff db head
    rw [batchRecords_cons, bind_error_iff, ElementsPanic]
    cases first : batchElement db head with
    | error stop =>
      rw [first] at panics refuses
      cases stop with
      | badarg =>
        have refused := refuses.mp rfl
        have calm : ¬ ElementPanics db head := by
          intro panic
          cases panics.mpr panic
        simp [refused, calm]
      | panic => simp [panics.mp rfl]
    | ok records =>
      rw [first] at panics refuses
      have accepted : ¬ ElementRefused head := by
        intro refused
        cases refuses.mpr refused
      have calm : ¬ ElementPanics db head := by
        intro panic
        cases panics.mpr panic
      simp [accepted, calm, ih]
  | case2 txs last =>
    cases txs with
    | cons head tail => exact absurd rfl (last head tail)
    | nil => simp [batchRecords, Term.forEach, ElementsPanic, pure, Except.pure]
    | _ =>
      rw [batchRecords, Term.forEach, bind_error_iff, ElementsPanic]
      · simp [pure, Except.pure]
      all_goals simp

theorem applyBatch_panic_iff (db : R.Store) (txs : Term) :
    applyBatch rt txs db = .error .panic ↔ BatchPanics rt db txs := by
  rw [applyBatch, bind_error_iff, BatchPanics]
  cases list : txs.decodeList with
  | error stop =>
    have kind : stop = .badarg := by
      cases txs <;> cases list <;> rfl
    subst kind
    simp
  | ok iter =>
    have same := decodeList_ok list
    subst same
    simp only [Except.ok.injEq, exists_eq_left', exists_eq', true_and, reduceCtorEq, false_or]
    rw [bind_error_iff, batchRecords_panic_iff]
    constructor
    · rintro (panics | ⟨batch, _, reply⟩)
      · exact panics
      · split at reply
        · split at reply <;> cases reply
        · cases reply
    · exact .inl

end ExRocket
