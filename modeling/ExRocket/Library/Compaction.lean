import ExRocket.Library.Regroup

/-! A key that is written while its store compacts it. On operands under which no reader can
tell when they are merged, the store reads like one that merges at once. -/
namespace Regroup

open Relation

variable {V : Type} {m m' : Operator V} {P : V → Prop} {s t : Pending V}

inductive Write (V : Type) where
  | put (v : V)
  | delete
  | merge (v : V)
  | keep

/-- What a write does to a key that is not compacted. -/
def Write.apply (s : Pending V) : Write V → Pending V
  | put v => ⟨some v, []⟩
  | delete => ⟨none, []⟩
  | merge v => ⟨s.base, s.operands ++ [v]⟩
  | keep => s

/-- What it does to a value, at once. -/
def Write.act (m : Operator V) (value : Option V) : Write V → Option V
  | put v => some v
  | delete => none
  | merge v => m value [v]
  | keep => value

def Write.Admitted (P : V → Prop) : Write V → Prop
  | merge v => P v
  | _ => True

theorem admitted_true (write : Write V) : write.Admitted fun _ => True := by
  cases write <;> trivial

def Pending.Admits (P : V → Prop) (s : Pending V) : Prop := ∀ op ∈ s.operands, P op

def merged : List (Write V) → List V
  | [] => []
  | .merge v :: writes => v :: merged writes
  | _ :: writes => merged writes

/-- On operands of this kind the operator always merges, to one of the kind if it has no base,
and it does not matter when. -/
structure LawfulOn (m : Operator V) (P : V → Prop) : Prop where
  total : ∀ e ops, (∀ op ∈ ops, P op) → ops ≠ [] → ∃ v, m e ops = some v
  closed : ∀ ops v, (∀ op ∈ ops, P op) → ops ≠ [] → m none ops = some v → P v
  full : ∀ e a b v, (∀ op ∈ a ++ b, P op) → a ≠ [] → b ≠ [] → m e a = some v →
    m (some v) b = m e (a ++ b)
  sound : ∀ e a r b p, (∀ op ∈ a ++ r ++ b, P op) → r ≠ [] → m none r = some p →
    m e (a ++ [p] ++ b) = m e (a ++ r ++ b)

/-- Two operands of this kind always merge with each other, and no reader can tell. -/
def PairsOn (m : Operator V) (P : V → Prop) : Prop :=
  ∀ op op', P op → P op' → ∃ p, m none [op, op'] = some p ∧ ∀ e, m e [p] = m e [op, op']

theorem LawfulOn.pairs (lawful : LawfulOn m P) : PairsOn m P := by
  intro op op' kind kind'
  have both : ∀ o ∈ [op, op'], P o := by simp [kind, kind']
  have nonempty : [op, op'] ≠ [] := List.cons_ne_nil op [op']
  obtain ⟨p, merges⟩ := lawful.total none [op, op'] both nonempty
  exact ⟨p, merges, fun e => lawful.sound e [] [op, op'] [] p (by simpa using both) nonempty merges⟩

/-- It never merges, or it does not matter when. -/
def Timeless (m : Operator V) (P : V → Prop) : Prop :=
  (∀ e ops, m e ops = none) ∨ LawfulOn m P

theorem settled_compacts {base : Option V} (run : ReflTransGen (Compacts m) ⟨base, []⟩ t) :
    t = ⟨base, []⟩ := by
  induction run with
  | refl => rfl
  | tail _ step ih =>
    subst ih
    generalize start : (⟨base, []⟩ : Pending V) = s at step
    cases step with
    | partialMerge base ops ops' group =>
      cases start
      exact absurd rfl (group_nonempty group).1
    | fullMerge base a b v nonempty merges =>
      have nothing : a ++ b = [] := congrArg Pending.operands start.symm
      exact absurd (List.append_eq_nil_iff.mp nothing).1 nonempty

theorem never_compacts (never : ∀ e ops, m e ops = none) (run : ReflTransGen (Compacts m) s t) :
    t = s := by
  induction run with
  | refl => rfl
  | tail _ step ih =>
    cases step with
    | partialMerge base ops ops' group =>
      cases group with
      | run a r b p nonempty merges => simp [never] at merges
    | fullMerge base a b v nonempty merges => simp [never] at merges

theorem lawful_step (lawful : LawfulOn m P) (admits : s.Admits P) (step : Compacts m s t) :
    t.read m = s.read m ∧ t.Admits P := by
  cases step with
  | partialMerge base ops ops' group =>
    cases group with
    | run a r b p nonempty merges =>
      have same := lawful.sound base a r b p admits nonempty merges
      have run : ∀ op ∈ r, P op := fun op member => admits op (by simp [member])
      have kind := lawful.closed r p run nonempty merges
      constructor
      · simpa [Pending.read, nonempty] using same
      · intro op member
        have place : op ∈ a ∨ op = p ∨ op ∈ b := by simpa using member
        rcases place with front | rfl | back
        · exact admits op (by simp [front])
        · exact kind
        · exact admits op (by simp [back])
  | fullMerge base a b v nonempty merges =>
    constructor
    · by_cases last : b = []
      · subst last
        simp [Pending.read, nonempty, merges]
      · have same := lawful.full base a b v admits nonempty last merges
        simpa [Pending.read, nonempty, last] using same
    · exact fun op member => admits op (List.mem_append_right a member)

theorem lawful_run (lawful : LawfulOn m P) (admits : s.Admits P)
    (run : ReflTransGen (Compacts m) s t) : t.read m = s.read m ∧ t.Admits P := by
  induction run with
  | refl => exact ⟨rfl, admits⟩
  | tail _ step ih =>
    obtain ⟨same, admits'⟩ := lawful_step lawful ih.2 step
    exact ⟨same.trans ih.1, admits'⟩

theorem read_apply (lawful : LawfulOn m P) (admits : s.Admits P) {write : Write V}
    (admitted : write.Admitted P) :
    (write.apply s).read m = write.act m (s.read m) ∧ (write.apply s).Admits P := by
  cases write with
  | put | delete => exact ⟨rfl, by simp [Write.apply, Pending.Admits]⟩
  | keep => exact ⟨rfl, admits⟩
  | merge v =>
    have all : ∀ op ∈ s.operands ++ [v], P op := by
      intro op member
      rcases List.mem_append.mp member with before | last
      · exact admits op before
      · rw [List.mem_singleton.mp last]
        exact admitted
    have read : ((Write.merge v).apply s).read m = m s.base (s.operands ++ [v]) := by
      simp [Pending.read, Write.apply]
    refine ⟨?_, all⟩
    rw [read]
    by_cases nothing : s.operands = []
    · simp [Write.act, Pending.read, nothing]
    · obtain ⟨value, merges⟩ := lawful.total s.base s.operands admits nothing
      rw [Write.act, Pending.read, if_neg nothing, merges]
      exact (lawful.full _ _ _ _ all nothing (List.cons_ne_nil v []) merges).symm

theorem never_apply (never : ∀ e ops, m e ops = none) (admits : s.Admits P) {write : Write V}
    (admitted : write.Admitted P) :
    (write.apply s).read m = write.act m (s.read m) ∧ (write.apply s).Admits P := by
  cases write with
  | put | delete => exact ⟨rfl, by simp [Write.apply, Pending.Admits]⟩
  | keep => exact ⟨rfl, admits⟩
  | merge v =>
    constructor
    · simp [Pending.read, Write.apply, Write.act, never]
    · exact List.forall_mem_append.mpr ⟨admits, List.forall_mem_singleton.mpr admitted⟩

/-- A write that acts at once is what a reader sees of a write and any compactions. -/
theorem read_run (timeless : Timeless m P) (admits : s.Admits P) {write : Write V}
    (admitted : write.Admitted P) (run : ReflTransGen (Compacts m) (write.apply s) t) :
    t.read m = write.act m (s.read m) ∧ t.Admits P := by
  rcases timeless with never | lawful
  · rw [never_compacts never run]
    exact never_apply never admits admitted
  · obtain ⟨acts, admits'⟩ := read_apply lawful admits admitted
    obtain ⟨same, admits''⟩ := lawful_run lawful admits' run
    exact ⟨same.trans acts, admits''⟩

theorem agrees_lawful (total : ∀ e ops, ∃ v, m' e ops = some v) (full : FullSplits m')
    (sound : PartialSound m') (same : ∀ e ops, (∀ op ∈ ops, P op) → m e ops = m' e ops)
    (closed : ∀ ops v, (∀ op ∈ ops, P op) → ops ≠ [] → m' none ops = some v → P v) :
    LawfulOn m P where
  total := by
    intro e ops kind _
    rw [same e ops kind]
    exact total e ops
  closed := by
    intro ops v kind nonempty merges
    rw [same none ops kind] at merges
    exact closed ops v kind nonempty merges
  full := by
    intro e a b v kind _ _ merges
    obtain ⟨first, second⟩ := List.forall_mem_append.mp kind
    rw [same e a first] at merges
    rw [same _ b second, same e _ kind]
    exact full e a b v merges
  sound := by
    intro e a r b p kind nonempty merges
    obtain ⟨front, back⟩ := List.forall_mem_append.mp kind
    obtain ⟨first, run⟩ := List.forall_mem_append.mp front
    rw [same none r run] at merges
    have grouped : ∀ op ∈ a ++ [p] ++ b, P op := by
      simp only [List.forall_mem_append, List.forall_mem_singleton]
      exact ⟨⟨first, closed r p run nonempty merges⟩, back⟩
    rw [same e _ grouped, same e _ kind]
    exact sound e a r b p nonempty merges

/-- An operator that adds up on operands of a kind, its own sums among them. -/
structure SumsOn {M : Type} [AddCommMonoid M] (sums : Summing m' M) (m : Operator V)
    (P : V → Prop) : Prop where
  same : ∀ e ops, (∀ op ∈ ops, P op) → m e ops = m' e ops
  closed : ∀ x, P (sums.print x)

section Sums

variable {M : Type} [AddCommMonoid M] {sums : Summing m' M} (sumsOn : SumsOn sums m P)
include sumsOn

theorem SumsOn.merge_eq {e : Option V} {ops : List V} (kind : ∀ op ∈ ops, P op) :
    m e ops = some (sums.print (sums.start e + (ops.map sums.value).sum)) := by
  rw [sumsOn.same e ops kind, sums.merge_eq]

theorem SumsOn.lawful : LawfulOn m P := by
  refine agrees_lawful (fun e ops => ⟨_, sums.merge_eq e ops⟩) sums.fullSplits sums.partialSound
    sumsOn.same ?_
  intro ops v _ _ merges
  rw [sums.merge_eq] at merges
  cases merges
  exact sumsOn.closed _

theorem SumsOn.act_value (value : Option V) {v : V} (kind : P v) :
    sums.start ((Write.merge v).act m value) = sums.start value + sums.value v := by
  rw [Write.act, sumsOn.merge_eq (List.forall_mem_singleton.mpr kind), sums.start_some,
    sums.value_print]
  simp

end Sums

theorem Summing.sumsOn {M : Type} [AddCommMonoid M] (sums : Summing m M) :
    SumsOn sums m fun _ => True :=
  ⟨fun _ _ _ => rfl, fun _ => trivial⟩

end Regroup
