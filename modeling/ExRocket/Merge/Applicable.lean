import ExRocket.Eetf.Wire
import ExRocket.Merge.Refinement

/-! Which operands leave the stored term alone. The operation documentation gives every
operation its argument types and the type it works on; the code reads its operands more
loosely, and an operation that it reads keeps the term only when it has nothing to do. -/
namespace ExRocket

open Rust

inductive Shape where
  | integer | list | binary | term
  deriving DecidableEq

def Shape.admits : Shape → EetfTerm → Bool
  | .integer, .fixInteger _ | .integer, .bigInteger _ => true
  | .list, .list _ => true
  | .binary, .binary _ => true
  | .term, _ => true
  | _, _ => false

def admitsAll : List Shape → List EetfTerm → Bool
  | [], [] => true
  | shape :: shapes, t :: ts => shape.admits t && admitsAll shapes ts
  | _, _ => false

/-- The type an operation works on, and the argument lists it is documented with. -/
def documentedOperation (opAtom : String) : Option (Shape × List (List Shape)) :=
  match opAtom with
  | "int_add" => some (.integer, [[.integer]])
  | "list_append" | "list_prepend" | "list_subtract" => some (.list, [[.list]])
  | "list_set" => some (.list, [[.integer, .term]])
  | "list_delete" => some (.list, [[.integer], [.integer, .integer]])
  | "list_insert" => some (.list, [[.integer, .list]])
  | "binary_append" => some (.binary, [[.binary]])
  | "binary_erase" => some (.binary, [[.integer, .integer]])
  | "binary_insert" => some (.binary, [[.integer, .binary]])
  | "binary_replace" => some (.binary, [[.integer, .integer, .binary]])
  | _ => none

/-- The type a documented operand works on. -/
def documentedShape : EetfTerm → Option Shape
  | .tuple (.atom opAtom :: arguments) =>
    match documentedOperation opAtom with
    | some (shape, signatures) =>
      if signatures.any (admitsAll · arguments) then some shape else none
    | none => none
  | _ => none

def DocumentedOperand (o : EetfTerm) : Prop := (documentedShape o).isSome

def Applicable (o t : EetfTerm) : Prop := (documentedShape o).any (·.admits t)

instance (o : EetfTerm) : Decidable (DocumentedOperand o) := inferInstanceAs (Decidable (_ = true))
instance (o t : EetfTerm) : Decidable (Applicable o t) := inferInstanceAs (Decidable (_ = true))

def Operation.shape : Operation → Shape
  | .intAdd _ => .integer
  | .list _ | .keepList => .list
  | .binary _ => .binary

/-- An operation on a list that has nothing to do: no elements to add, none to take away, or
a position that the bounds refuse. -/
def ListOp.Idle (eq : EetfTerm → EetfTerm → Bool) (xs : List EetfTerm) : ListOp → Prop
  | .append ys | .prepend ys => ys = []
  | .subtract ys => ∀ x ∈ xs, ¬ ys.any (eq · x)
  | .set p v => 0 ≤ p.toInt → p.toInt < xs.length → xs[p.toInt.toNat]? = some v
  | .delete p => p.toInt < 0 ∨ xs.length ≤ p.toInt
  | .deleteRange s e =>
    s = e ∨ s.toInt < 0 ∨ e.toInt < 0 ∨ xs.length ≤ s.toInt ∨ xs.length < e.toInt
  | .insert p ys => ys = [] ∨ p.toInt < 0 ∨ xs.length < p.toInt

def Outside (p n : Int32) (length : Nat) : Prop :=
  p.toInt < 0 ∨ length < p.toInt ∨ p.toInt + n.toInt < 0 ∨ length < p.toInt + n.toInt

def BinaryOp.Idle (bs : Bytes) : BinaryOp → Prop
  | .append x => x = []
  | .erase p n => n.toInt = 0 ∨ Outside p n bs.length
  | .insert p x => x = [] ∨ p.toInt < 0 ∨ bs.length < p.toInt
  | .replace p n x =>
    Outside p n bs.length ∨ 0 ≤ n.toInt ∧ x = (bs.drop p.toInt.toNat).take n.toInt.toNat

/-- The term has the type of the operation, and the operation has nothing to do on it. -/
def Operation.Idle (eq : EetfTerm → EetfTerm → Bool) (t : EetfTerm) : Operation → Prop
  | .intAdd k => k = 0 ∧ ∃ i, t = .fixInteger i
  | .list op => ∃ xs, t = .list xs ∧ op.Idle eq xs
  | .keepList => ∃ xs, t = .list xs
  | .binary op => ∃ bs, t = .binary bs ∧ op.Idle bs

theorem Operation.idle_admitted {eq : EetfTerm → EetfTerm → Bool} {t : EetfTerm}
    {op : Operation} (idle : op.Idle eq t) : op.shape.admits t := by
  cases op with
  | intAdd k =>
    obtain ⟨_, i, rfl⟩ := idle
    rfl
  | list op =>
    obtain ⟨xs, rfl, _⟩ := idle
    rfl
  | keepList =>
    obtain ⟨xs, rfl⟩ := idle
    rfl
  | binary op =>
    obtain ⟨bs, rfl, _⟩ := idle
    rfl

section Idle

variable {eq : EetfTerm → EetfTerm → Bool}

/-- Putting something in place of a stretch gives the vector back only when it is that
stretch. -/
theorem splice_kept_iff {α : Type} {xs ys : List α} {m n : Nat} (order : m ≤ n) :
    xs.take m ++ ys ++ xs.drop n = xs ↔ ys = (xs.drop m).take (n - m) := by
  have whole : xs = xs.take m ++ (xs.drop m).take (n - m) ++ xs.drop n := by
    have rest : xs.drop n = (xs.drop m).drop (n - m) := by
      rw [List.drop_drop]
      congr 1
      omega
    rw [rest, List.append_assoc, List.take_append_drop, List.take_append_drop]
  constructor
  · intro kept
    have same := kept.trans whole
    exact List.append_cancel_left (List.append_cancel_right same)
  · rintro rfl
    exact whole.symm

theorem erase_kept_iff {α : Type} {xs : List α} {m n : Nat} (order : m ≤ n)
    (inside : n ≤ xs.length) : xs.take m ++ xs.drop n = xs ↔ m = n := by
  have spliced : xs.take m ++ [] ++ xs.drop n = xs ↔ [] = (xs.drop m).take (n - m) :=
    splice_kept_iff order
  rw [List.append_nil] at spliced
  rw [spliced, eq_comm, List.take_eq_nil_iff, List.drop_eq_nil_iff]
  omega

theorem insert_kept_iff {α : Type} {xs ys : List α} {m : Nat} :
    xs.take m ++ ys ++ xs.drop m = xs ↔ ys = [] := by
  rw [splice_kept_iff (Nat.le_refl m), Nat.sub_self, List.take_zero]

theorem guarded_insert_kept_iff {α : Type} {xs ys : List α} {p : Int} :
    (if 0 ≤ p ∧ p ≤ xs.length then xs.take p.toNat ++ ys ++ xs.drop p.toNat else xs) = xs ↔
      ys = [] ∨ p < 0 ∨ xs.length < p := by
  split
  · rw [insert_kept_iff]
    exact ⟨.inl, fun idle => idle.resolve_right (by omega)⟩
  · rename_i outside
    exact iff_of_true rfl (.inr (by omega))

theorem set_kept_iff {α : Type} {xs : List α} {m : Nat} {v : α} (inside : m < xs.length) :
    xs.set m v = xs ↔ xs[m]? = some v := by
  constructor
  · intro kept
    have here := List.getElem?_set_self (a := v) inside
    rwa [kept] at here
  · intro here
    apply List.ext_getElem?
    intro i
    rw [List.getElem?_set]
    split
    · rename_i same
      rw [← same, here]
    · rfl

theorem ListOp.idle_iff (xs : List EetfTerm) (op : ListOp) :
    op.Idle eq xs ↔
      ¬ (Operation.list op).Inverted (some (.list xs)) ∧ op.apply eq xs = xs := by
  cases op with
  | append ys => simp [Idle, apply, Operation.Inverted]
  | prepend ys => simp [Idle, apply, Operation.Inverted]
  | subtract ys => simp [Idle, apply, Operation.Inverted, List.filter_eq_self]
  | set p v =>
    simp only [Idle, apply, Operation.Inverted, not_false_eq_true, true_and]
    split
    · rename_i inside
      rw [set_kept_iff (by omega)]
      exact ⟨fun idle => idle inside.1 inside.2, fun here _ _ => here⟩
    · rename_i outside
      exact iff_of_true (fun low high => absurd ⟨low, high⟩ outside) rfl
  | delete p =>
    simp only [Idle, apply, Operation.Inverted, not_false_eq_true, true_and]
    split
    · rw [List.eraseIdx_eq_self]
      omega
    · rename_i outside
      exact iff_of_true (by omega) rfl
  | deleteRange s e =>
    have same : s = e ↔ s.toInt = e.toInt := Int32.toInt_inj.symm
    simp only [Idle, apply, Operation.Inverted, clonedList, same]
    split
    · rw [erase_kept_iff (by omega) (by omega)]
      omega
    · rename_i outside
      simp only [and_true]
      omega
  | insert p ys =>
    simp only [Idle, apply, Operation.Inverted, not_false_eq_true, true_and]
    exact guarded_insert_kept_iff.symm

theorem BinaryOp.idle_iff (bs : Bytes) (op : BinaryOp) :
    op.Idle bs ↔ ¬ (Operation.binary op).Inverted (some (.binary bs)) ∧ op.apply bs = bs := by
  cases op with
  | append x => simp [Idle, apply, Operation.Inverted]
  | erase p n =>
    simp only [Idle, Outside, apply, Operation.Inverted, clonedBinary]
    split
    · rename_i range
      obtain ⟨low, sign, high⟩ := range
      rw [erase_kept_iff (by omega) (by omega)]
      omega
    · rename_i missed
      unfold InRange at missed
      simp only [and_true]
      omega
  | insert p x =>
    simp only [Idle, apply, Operation.Inverted, not_false_eq_true, true_and]
    exact guarded_insert_kept_iff.symm
  | replace p n x =>
    simp only [Idle, Outside, apply, Operation.Inverted, clonedBinary]
    split
    · rename_i range
      obtain ⟨low, sign, high⟩ := range
      have length : (p.toInt + n.toInt).toNat - p.toInt.toNat = n.toInt.toNat := by omega
      rw [splice_kept_iff (by omega), length]
      constructor
      · rintro (outside | ⟨_, same⟩)
        · omega
        · exact ⟨by omega, same⟩
      · exact fun kept => .inr ⟨sign, kept.2⟩
    · rename_i missed
      unfold InRange at missed
      simp only [and_true]
      constructor
      · rintro (outside | ⟨sign, same⟩)
        · omega
        · omega
      · intro sane
        exact .inl (by omega)

/-- An operation keeps a term exactly when it is idle on it. -/
theorem Operation.idle_iff (t : EetfTerm) (op : Operation) :
    op.Idle eq t ↔ ¬ op.Inverted (some t) ∧ op.apply eq (some t) = t := by
  cases op with
  | intAdd k =>
    cases t <;> simp [Idle, Inverted, apply, smallInteger]
  | list op =>
    cases t with
    | list xs => simpa [Idle, apply, clonedList] using op.idle_iff xs
    | _ => simp [Idle, apply]
  | keepList =>
    cases t <;> simp [Idle, Inverted, apply, clonedList]
  | binary op =>
    cases t with
    | binary bs => simpa [Idle, apply, clonedBinary] using op.idle_iff bs
    | _ => simp [Idle, apply]

end Idle

/-- Whatever its arguments, the code reads an operation as one on the documented type. -/
theorem Operation.readArguments_shape {opAtom : String} {arguments : List EetfTerm}
    {op : Operation} (reads : Operation.readArguments opAtom arguments = some op) :
    (documentedOperation opAtom).map Prod.fst = some op.shape := by
  unfold Operation.readArguments at reads
  split at reads
  case h_12 => cases reads
  all_goals
    simp only [Operation.readIntAdd.eq_def, Operation.readList.eq_def,
      Operation.readListSet.eq_def, Operation.readListDelete.eq_def,
      Operation.readListInsert.eq_def, Operation.readBinaryAppend.eq_def,
      Operation.readBinaryErase.eq_def, Operation.readBinaryInsert.eq_def,
      Operation.readBinaryReplace.eq_def] at reads
    split at reads <;> cases reads <;> rfl

theorem documentedShape_tuple {opAtom : String} {arguments : List EetfTerm} {shape : Shape}
    (documented : documentedShape (.tuple (.atom opAtom :: arguments)) = some shape) :
    (documentedOperation opAtom).map Prod.fst = some shape := by
  simp only [documentedShape] at documented
  split at documented
  · rename_i worked signatures table
    split at documented
    · simp only [table]
      exact documented
    · cases documented
  · cases documented

/-- A documented operand that the code reads is read as an operation on its own type. -/
theorem Operation.read_shape {o : EetfTerm} {op : Operation} {shape : Shape}
    (reads : Operation.read o = some op) (documented : documentedShape o = some shape) :
    op.shape = shape := by
  unfold Operation.read at reads
  split at reads
  · have same := Operation.readArguments_shape reads
    rw [documentedShape_tuple documented] at same
    exact (Option.some.inj same).symm
  · cases reads

section Kept

variable {c : Eetf} {t o : EetfTerm}

theorem process_kept_iff (fits : t.Fits) :
    processEetfMergeOperation c (some t) o = .ok (some t) ↔
      ∀ op, Operation.read o = some op → op.Idle c.eq t := by
  rw [process_eq c _ (valueFits_some fits)]
  cases Operation.read o with
  | none =>
    constructor
    · intro _ op impossible
      cases impossible
    · intro _
      rfl
  | some op =>
    simp only [Operation.outcomeOf, Operation.outcome]
    constructor
    · intro kept op' same
      cases same
      rw [Operation.idle_iff]
      split at kept
      · cases kept
      · rename_i sane
        split at kept
        · exact ⟨sane, Option.some.inj (Except.ok.inj kept)⟩
        · cases kept
    · intro idle
      obtain ⟨sane, same⟩ := (Operation.idle_iff t op).mp (idle op rfl)
      simp only [if_neg sane, same, if_pos fits]

/-- An operand that is not applicable leaves the stored term alone exactly when the code
does not read it as an operation, or reads it past surplus arguments as an idle one. -/
theorem inapplicable_kept_iff (fits : t.Fits) (inapplicable : ¬ Applicable o t) :
    processEetfMergeOperation c (some t) o = .ok (some t) ↔
      ∀ op, Operation.read o = some op → ¬ DocumentedOperand o ∧ op.Idle c.eq t := by
  rw [process_kept_iff fits]
  constructor
  · intro idle op reads
    have admitted := Operation.idle_admitted (idle op reads)
    refine ⟨?_, idle op reads⟩
    intro documented
    obtain ⟨shape, known⟩ := Option.isSome_iff_exists.mp documented
    rw [Operation.read_shape reads known] at admitted
    apply inapplicable
    simp only [Applicable, known]
    exact admitted
  · exact fun idle op reads => (idle op reads).2

theorem inapplicable_kept_iff_append :
    processEetfMergeOperation Wire.codec (some (.fixInteger 5))
        (.tuple [.atom "list_append", .list [.fixInteger 1]]) = .ok (some (.fixInteger 5)) ↔
      ∀ op, Operation.read (.tuple [.atom "list_append", .list [.fixInteger 1]]) = some op →
        ¬ DocumentedOperand (.tuple [.atom "list_append", .list [.fixInteger 1]]) ∧
          op.Idle Wire.codec.eq (.fixInteger 5) :=
  inapplicable_kept_iff trivial (by decide)

/- The integer 5 becomes the list [1]. -/
theorem inapplicable_replaces :
    ¬ ∀ t o : EetfTerm, t.Fits → ¬ Applicable o t →
      processEetfMergeOperation Wire.codec (some t) o = .ok (some t) := by
  intro keeps
  have kept := keeps (.fixInteger 5) (.tuple [.atom "list_append", .list [.fixInteger 1]])
    trivial (by decide)
  have replaced : processEetfMergeOperation Wire.codec (some (.fixInteger 5))
      (.tuple [.atom "list_append", .list [.fixInteger 1]]) =
      .ok (some (.list [.fixInteger 1])) := by decide
  rw [replaced] at kept
  cases kept

end Kept

end ExRocket
