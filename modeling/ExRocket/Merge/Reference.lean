import ExRocket.Merge.Erlang

/-! The operations a merge operand can ask for, and what each is meant to do.
An operand is read once, whatever the existing value is; then the operation acts on the
existing list, binary or integer, where a value of another type counts as empty. -/
namespace ExRocket

open Rust

inductive ListOp where
  | append (ys : List EetfTerm)
  | prepend (ys : List EetfTerm)
  | subtract (ys : List EetfTerm)
  | set (p : Int32) (v : EetfTerm)
  | delete (p : Int32)
  | deleteRange (s e : Int32)
  | insert (p : Int32) (ys : List EetfTerm)

inductive BinaryOp where
  | append (x : Bytes)
  | erase (p n : Int32)
  | insert (p : Int32) (x : Bytes)
  | replace (p n : Int32) (x : Bytes)

/- A range delete whose end is not a small integer keeps the list: the code has no branch
for it and returns the clone. -/
inductive Operation where
  | intAdd (k : Int32)
  | list (op : ListOp)
  | keepList
  | binary (op : BinaryOp)

def ListOp.apply (eq : EetfTerm → EetfTerm → Bool) (xs : List EetfTerm) :
    ListOp → List EetfTerm
  | .append ys => xs ++ ys
  | .prepend ys => ys ++ xs
  | .subtract ys => xs.filter fun x => !ys.any (eq · x)
  | .set p v => if 0 ≤ p.toInt ∧ p.toInt < xs.length then xs.set p.toInt.toNat v else xs
  | .delete p => if 0 ≤ p.toInt ∧ p.toInt < xs.length then xs.eraseIdx p.toInt.toNat else xs
  | .deleteRange s e =>
    if 0 ≤ s.toInt ∧ s.toInt ≤ e.toInt ∧ e.toInt ≤ xs.length then
      xs.take s.toInt.toNat ++ xs.drop e.toInt.toNat
    else xs
  | .insert p ys =>
    if 0 ≤ p.toInt ∧ p.toInt ≤ xs.length then
      xs.take p.toInt.toNat ++ ys ++ xs.drop p.toInt.toNat
    else xs

def InRange (p n : Int32) (length : Nat) : Prop :=
  0 ≤ p.toInt ∧ 0 ≤ n.toInt ∧ p.toInt + n.toInt ≤ length

instance (p n : Int32) (length : Nat) : Decidable (InRange p n length) :=
  inferInstanceAs (Decidable (_ ∧ _ ∧ _))

def BinaryOp.apply (bs : Bytes) : BinaryOp → Bytes
  | .append x => bs ++ x
  | .erase p n =>
    if InRange p n bs.length then
      bs.take p.toInt.toNat ++ bs.drop (p.toInt + n.toInt).toNat
    else bs
  | .insert p x =>
    if 0 ≤ p.toInt ∧ p.toInt ≤ bs.length then
      bs.take p.toInt.toNat ++ x ++ bs.drop p.toInt.toNat
    else bs
  | .replace p n x =>
    if InRange p n bs.length then
      bs.take p.toInt.toNat ++ x ++ bs.drop (p.toInt + n.toInt).toNat
    else bs

/-- The integer an addition starts from: a big integer or any other term counts as zero. -/
def smallInteger : Option EetfTerm → Int32
  | some (.fixInteger i) => i
  | _ => 0

namespace Operation

def apply (eq : EetfTerm → EetfTerm → Bool) (existing : Option EetfTerm) :
    Operation → EetfTerm
  | .intAdd k => .fixInteger (smallInteger existing + k)
  | .list op => .list (op.apply eq (clonedList existing))
  | .keepList => .list (clonedList existing)
  | .binary op => .binary (op.apply (clonedBinary existing))

/-- A range that ends before it starts although both ends are in bounds: the separate
bound checks let it through to drain. -/
def Inverted (existing : Option EetfTerm) : Operation → Prop
  | .list (.deleteRange s e) =>
    0 ≤ e.toInt ∧ e.toInt < s.toInt ∧ s.toInt < (clonedList existing).length
  | .binary (.erase p n) | .binary (.replace p n _) =>
    n.toInt < 0 ∧ 0 ≤ p.toInt + n.toInt ∧ p.toInt ≤ (clonedBinary existing).length
  | _ => False

instance (existing : Option EetfTerm) (op : Operation) : Decidable (op.Inverted existing) :=
  match op with
  | .list (.deleteRange _ _) => inferInstanceAs (Decidable (_ ∧ _ ∧ _))
  | .binary (.erase _ _) | .binary (.replace _ _ _) => inferInstanceAs (Decidable (_ ∧ _ ∧ _))
  | .intAdd _ | .keepList | .binary (.append _) | .binary (.insert _ _) => .isFalse id
  | .list (.append _) | .list (.prepend _) | .list (.subtract _) | .list (.set _ _)
  | .list (.delete _) | .list (.insert _ _) => .isFalse id

def readIntAdd : List EetfTerm → Option Operation
  | .fixInteger k :: _ => some (.intAdd k)
  | _ => none

def readList (op : List EetfTerm → ListOp) : List EetfTerm → Option Operation
  | .list ys :: _ => some (.list (op ys))
  | _ => none

def readListSet : List EetfTerm → Option Operation
  | .fixInteger p :: v :: _ => some (.list (.set p v))
  | _ => none

def readListDelete : List EetfTerm → Option Operation
  | [.fixInteger p] => some (.list (.delete p))
  | .fixInteger s :: .fixInteger e :: _ => some (.list (.deleteRange s e))
  | .fixInteger _ :: _ :: _ => some .keepList
  | _ => none

def readListInsert : List EetfTerm → Option Operation
  | .fixInteger p :: .list ys :: _ => some (.list (.insert p ys))
  | _ => none

def readBinaryAppend : List EetfTerm → Option Operation
  | .binary x :: _ => some (.binary (.append x))
  | _ => none

def readBinaryErase : List EetfTerm → Option Operation
  | .fixInteger p :: .fixInteger n :: _ => some (.binary (.erase p n))
  | _ => none

def readBinaryInsert : List EetfTerm → Option Operation
  | .fixInteger p :: .binary x :: _ => some (.binary (.insert p x))
  | _ => none

def readBinaryReplace : List EetfTerm → Option Operation
  | .fixInteger p :: .fixInteger n :: .binary x :: _ => some (.binary (.replace p n x))
  | _ => none

def readArguments (opAtom : String) (arguments : List EetfTerm) : Option Operation :=
  match opAtom with
  | "int_add" => readIntAdd arguments
  | "list_append" => readList .append arguments
  | "list_prepend" => readList .prepend arguments
  | "list_subtract" => readList .subtract arguments
  | "list_set" => readListSet arguments
  | "list_delete" => readListDelete arguments
  | "list_insert" => readListInsert arguments
  | "binary_append" => readBinaryAppend arguments
  | "binary_erase" => readBinaryErase arguments
  | "binary_insert" => readBinaryInsert arguments
  | "binary_replace" => readBinaryReplace arguments
  | _ => none

/-- The operation a term asks for, if it is a tuple that the operator recognises. -/
def read : EetfTerm → Option Operation
  | .tuple (.atom opAtom :: arguments) => readArguments opAtom arguments
  | _ => none

end Operation

/-- The reference step: an operand that asks for nothing changes nothing. -/
def referenceStep (eq : EetfTerm → EetfTerm → Bool) (existing : Option EetfTerm)
    (operand : EetfTerm) : Option EetfTerm :=
  match Operation.read operand with
  | some op => some (op.apply eq existing)
  | none => existing

def reference (eq : EetfTerm → EetfTerm → Bool) (existing : Option EetfTerm)
    (operands : List EetfTerm) : Option EetfTerm :=
  operands.foldl (referenceStep eq) existing

@[simp] theorem reference_nil (eq : EetfTerm → EetfTerm → Bool) (existing : Option EetfTerm) :
    reference eq existing [] = existing := rfl

@[simp] theorem reference_cons (eq : EetfTerm → EetfTerm → Bool) (existing : Option EetfTerm)
    (t : EetfTerm) (ts : List EetfTerm) :
    reference eq existing (t :: ts) = reference eq (referenceStep eq existing t) ts := rfl

theorem reference_append (eq : EetfTerm → EetfTerm → Bool) (existing : Option EetfTerm)
    (ts us : List EetfTerm) :
    reference eq existing (ts ++ us) = reference eq (reference eq existing ts) us :=
  List.foldl_append

end ExRocket
