import ExRocket.Merge.Refinement

/-! Runs of the term operator. The loop is a run over the operands that decode; what the
call returns is then decided by the term it ends with. -/
namespace ExRocket

open Rust

def decoded (c : Eetf) (operands : List Bytes) : List EetfTerm := operands.filterMap c.decode

def runOperands (c : Eetf) : Option EetfTerm → List EetfTerm → Outcome (Option EetfTerm)
  | current, [] => .ok current
  | current, t :: ts => do
    let current ← processEetfMergeOperation c current t
    runOperands c current ts

theorem decoded_append (c : Eetf) (ops ops' : List Bytes) :
    decoded c (ops ++ ops') = decoded c ops ++ decoded c ops' :=
  List.filterMap_append

theorem runOperands_append (c : Eetf) (current : Option EetfTerm) (ts us : List EetfTerm) :
    runOperands c current (ts ++ us) =
      (runOperands c current ts).bind fun mid => runOperands c mid us := by
  induction ts generalizing current with
  | nil => rfl
  | cons t ts ih =>
    simp only [List.cons_append, runOperands, bind, Except.bind, ih]
    cases processEetfMergeOperation c current t <;> rfl

theorem etfLoop_eq (c : Eetf) (operands : List Bytes) (current : Option EetfTerm)
    (processing : Bool) :
    etfLoop c operands current processing =
      (runOperands c current (decoded c operands)).map
        fun final => (final, processing || !(decoded c operands).isEmpty) := by
  induction operands generalizing current processing with
  | nil => simp [etfLoop, decoded, runOperands, Except.map, pure, Except.pure]
  | cons op ops ih =>
    cases h : c.decode op with
    | none =>
      have skip : decoded c (op :: ops) = decoded c ops := by simp [decoded, h]
      rw [etfLoop, h, skip]
      exact ih current processing
    | some t =>
      have take : decoded c (op :: ops) = t :: decoded c ops := by simp [decoded, h]
      rw [etfLoop, h, take, runOperands]
      cases hp : processEetfMergeOperation c current t with
      | error p => simp [hp, bind, Except.bind, Except.map]
      | ok next => simp [hp, bind, Except.bind, ih]

/-- What a call returns once its operands have run: the term it ended with, or the sum of
the decimal texts when there is none to write. -/
def settled (c : Eetf) (existingVal : Option Bytes) (operands : List Bytes)
    (final : Option EetfTerm) : Bytes :=
  if decoded c operands = [] then stringSum existingVal operands
  else (final.bind c.encode).getD (stringSum existingVal operands)

theorem erlangMerge_eq (c : Eetf) (key : Bytes) (e : Option Bytes) (ops : List Bytes) :
    erlangMerge c key e ops =
      (runOperands c (e.bind c.decode) (decoded c ops)).map
        fun final => some (settled c e ops final) := by
  unfold erlangMerge
  simp only [etfLoop_eq, Bool.false_or]
  cases runOperands c (e.bind c.decode) (decoded c ops) with
  | error p => rfl
  | ok final =>
    simp only [Except.map, bind, Except.bind, settled]
    cases decoded c ops with
    | nil => rfl
    | cons t ts =>
      cases final with
      | none => rfl
      | some t =>
        simp only [Option.bind_some]
        cases c.encode t <;> rfl

theorem process_ok {c : Eetf} {current next : Option EetfTerm} {t : EetfTerm}
    (fits : ValueFits current) (done : processEetfMergeOperation c current t = .ok next) :
    next = referenceStep c.eq current t ∧ ValueFits next := by
  rw [process_eq c current fits] at done
  unfold referenceStep
  cases hop : Operation.read t with
  | none =>
    rw [hop] at done
    cases done
    exact ⟨rfl, fits⟩
  | some op =>
    rw [hop, Operation.outcomeOf, Operation.outcome] at done
    split at done
    · cases done
    · split at done
      · rename_i within
        cases done
        exact ⟨rfl, valueFits_some within⟩
      · cases done

/-- Along a run that returns, the code's value is the reference value. -/
theorem run_ok {c : Eetf} {current final : Option EetfTerm} {ts : List EetfTerm}
    (fits : ValueFits current) (done : runOperands c current ts = .ok final) :
    final = reference c.eq current ts ∧ ValueFits final := by
  induction ts generalizing current with
  | nil =>
    cases done
    exact ⟨rfl, fits⟩
  | cons t ts ih =>
    simp only [runOperands, bind, Except.bind] at done
    split at done
    · cases done
    · rename_i next step
      obtain ⟨same, within⟩ := process_ok fits step
      have rest := ih within done
      rw [same] at rest
      exact rest

theorem base_fits (c : Eetf) (e : Option Bytes) : ValueFits (e.bind c.decode) := by
  cases e with
  | none => exact valueFits_none
  | some b => exact fun t decodes => c.decode_fits b t decodes

def referenceMerge (c : Eetf) (e : Option Bytes) (ops : List Bytes) : Option EetfTerm :=
  reference c.eq (e.bind c.decode) (decoded c ops)

theorem erlangMerge_ok {c : Eetf} {key : Bytes} {e : Option Bytes} {ops : List Bytes}
    {out : Option Bytes} (returns : erlangMerge c key e ops = .ok out) :
    out = some (settled c e ops (referenceMerge c e ops)) := by
  rw [erlangMerge_eq] at returns
  cases h : runOperands c (e.bind c.decode) (decoded c ops) with
  | error p =>
    rw [h] at returns
    cases returns
  | ok final =>
    rw [h] at returns
    cases returns
    rw [(run_ok (base_fits c e) h).1]
    rfl

/-- Every operand, taken at the reference value before it, is free of inverted ranges. -/
def NoInverted (eq : EetfTerm → EetfTerm → Bool) : Option EetfTerm → List EetfTerm → Prop
  | _, [] => True
  | current, t :: ts =>
    (∀ op, Operation.read t = some op → ¬ op.Inverted current) ∧
      NoInverted eq (referenceStep eq current t) ts

theorem process_returns_iff {c : Eetf} {current : Option EetfTerm} {t : EetfTerm}
    (fits : ValueFits current)
    (memory : processEetfMergeOperation c current t ≠ .error .capacity) :
    (∃ next, processEetfMergeOperation c current t = .ok next) ↔
      ∀ op, Operation.read t = some op → ¬ op.Inverted current := by
  rw [process_eq c current fits] at memory ⊢
  cases hop : Operation.read t with
  | none => exact ⟨fun _ op impossible => (by cases impossible), fun _ => ⟨current, rfl⟩⟩
  | some op =>
    rw [hop, Operation.outcomeOf, Operation.outcome] at memory
    rw [Operation.outcomeOf, Operation.outcome]
    by_cases inverted : op.Inverted current
    · rw [if_pos inverted]
      constructor
      · rintro ⟨next, impossible⟩
        cases impossible
      · exact fun sane => absurd inverted (sane op rfl)
    · rw [if_neg inverted] at memory ⊢
      by_cases within : (op.apply c.eq current).Fits
      · rw [if_pos within]
        exact ⟨fun _ op' same => Option.some.inj same ▸ inverted, fun _ => ⟨_, rfl⟩⟩
      · exact absurd (if_neg within) memory

theorem run_returns_iff {c : Eetf} {current : Option EetfTerm} {ts : List EetfTerm}
    (fits : ValueFits current) (memory : runOperands c current ts ≠ .error .capacity) :
    (∃ final, runOperands c current ts = .ok final) ↔ NoInverted c.eq current ts := by
  induction ts generalizing current with
  | nil => exact ⟨fun _ => trivial, fun _ => ⟨current, rfl⟩⟩
  | cons t ts ih =>
    simp only [runOperands, bind, Except.bind] at memory ⊢
    have step : processEetfMergeOperation c current t ≠ .error .capacity := by
      intro full
      rw [full] at memory
      exact memory rfl
    have first := process_returns_iff fits step
    cases h : processEetfMergeOperation c current t with
    | error p =>
      rw [h] at first
      constructor
      · rintro ⟨final, impossible⟩
        cases impossible
      · intro sane
        obtain ⟨next, impossible⟩ := first.mpr sane.1
        cases impossible
    | ok next =>
      obtain ⟨same, within⟩ := process_ok fits h
      rw [h] at memory first
      have rest := ih within memory
      rw [same] at rest ⊢
      exact ⟨fun done => ⟨first.mp ⟨next, rfl⟩, rest.mp done⟩, fun sane => rest.mpr sane.2⟩

end ExRocket
