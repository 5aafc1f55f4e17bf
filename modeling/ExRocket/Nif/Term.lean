import ExRocket.Rust.Text
import Mathlib.Data.List.Forall2

/-! Erlang terms as a native function receives and returns them, and the decoders that the
binding library applies to arguments. A native function either returns a term, fails with
badarg, or panics. -/
namespace ExRocket

open Rust

inductive Resource where
  | db
  | snapshot (id : Nat)
  | iterator (id : Nat)
  deriving DecidableEq, Repr

inductive Term where
  | atom (name : String)
  | integer (value : Int)
  | float (bits : UInt64)
  | binary (bytes : Bytes)
  | tuple (elements : List Term)
  | nil
  | cons (head tail : Term)
  | map (pairs : List (Term × Term))
  | resource (r : Resource)
  | other (external : Bytes)
  deriving Repr

inductive Stop where
  | badarg | panic
  deriving DecidableEq, Repr

abbrev NifResult (α : Type) := Except Stop α

/-- What the code relies on in the binding library and cannot be read here: the external
form of a term, and what a list iterator does at the tail of an improper list. -/
structure Rustler where
  toBinary : Term → Bytes
  improperTail : NifResult Unit

namespace Term

def decodeBinary : Term → NifResult Bytes
  | binary bytes => return bytes
  | _ => throw .badarg

def decodeString : Term → NifResult Str
  | binary bytes =>
    match fromUtf8 bytes with
    | some text => return text
    | none => throw .badarg
  | _ => throw .badarg

def atomToString : Term → NifResult String
  | atom name => return name
  | _ => throw .badarg

def getTuple : Term → NifResult (List Term)
  | tuple elements => return elements
  | _ => throw .badarg

/-- `LazyBinary`: the bytes of a binary, or the external form of any other term. -/
def lazyBinary (rt : Rustler) : Term → Bytes
  | binary bytes => bytes
  | t => rt.toBinary t

/-- `ListIterator`: any list cell or the empty list will do. -/
def decodeList : Term → NifResult Term
  | nil => return nil
  | cons head tail => return cons head tail
  | _ => throw .badarg

/-- `for elem in iter { .. }`, with what the body accumulates. -/
def forEach {σ : Type} (rt : Rustler) (body : σ → Term → NifResult σ) : Term → σ → NifResult σ
  | cons head tail, acc => do
    let acc ← body acc head
    forEach rt body tail acc
  | nil, acc => return acc
  | _, acc => do
    rt.improperTail
    return acc

def ok : Term := atom "ok"

def bool (b : Bool) : Term := atom (if b then "true" else "false")

/-- `(error(), text)` -/
def error (text : Str) : Term := tuple [atom "error", binary (intoBytes text)]

end Term

/-- `xs[i]` -/
def indexed {α : Type} (xs : List α) (i : Nat) : NifResult α :=
  match xs[i]? with
  | some x => return x
  | none => throw .panic

@[simp] theorem indexed_zero {α : Type} (x : α) (xs : List α) : indexed (x :: xs) 0 = .ok x := rfl

@[simp] theorem indexed_succ {α : Type} (x : α) (xs : List α) (i : Nat) :
    indexed (x :: xs) (i + 1) = indexed xs i := rfl

@[simp] theorem indexed_nil {α : Type} (i : Nat) : indexed ([] : List α) i = .error .panic := rfl

/-- `option.unwrap()` -/
def unwrap {α : Type} : Option α → NifResult α
  | some x => return x
  | none => throw .panic

theorem bind_ok {ε α β : Type} {x : Except ε α} {f : α → Except ε β} {b : β}
    (h : (x >>= f) = .ok b) : ∃ a, x = .ok a ∧ f a = .ok b := by
  cases x with
  | error stop => cases h
  | ok a => exact ⟨a, rfl, h⟩

theorem bind_error_iff {α β : Type} {x : NifResult α} {f : α → NifResult β} {stop : Stop} :
    (x >>= f) = .error stop ↔ x = .error stop ∨ ∃ a, x = .ok a ∧ f a = .error stop := by
  cases x with
  | error e => simp [bind, Except.bind]
  | ok a => simp [bind, Except.bind]

theorem mapM_ok_iff {α β : Type} {decode : α → NifResult β} {xs : List α} {ys : List β} :
    xs.mapM decode = .ok ys ↔ List.Forall₂ (fun x y => decode x = .ok y) xs ys := by
  induction xs generalizing ys with
  | nil => cases ys <;> simp [pure, Except.pure]
  | cons x xs ih =>
    rw [List.mapM_cons]
    constructor
    · intro decodes
      obtain ⟨y, head, rest⟩ := bind_ok decodes
      obtain ⟨ys', tail, same⟩ := bind_ok rest
      cases same
      exact .cons head (ih.mp tail)
    · rintro (_ | ⟨head, tail⟩)
      rw [head, ih.mpr tail]
      rfl

theorem unwrap_ok {α : Type} {x : Option α} {a : α} (h : unwrap x = .ok a) : x = some a := by
  cases x <;> cases h
  rfl

theorem unwrap_error_iff {α : Type} {x : Option α} {stop : Stop} :
    unwrap x = .error stop ↔ stop = .panic ∧ x = none := by
  cases x with
  | none => simp [unwrap, throw, throwThe, MonadExceptOf.throw, eq_comm]
  | some a => simp [unwrap, pure, Except.pure]

end ExRocket
