import ExRocket.Nif.Run

/-! Draining an iterator: what repeated calls of next reply. A read is observed by its
reply, or, when it hands out an iterator, by what the iterator yields. -/
namespace ExRocket

open Rust

variable {rt : Rustler} {R : RocksDb}

/-- What the first n steps of an iterator yield. -/
def RocksDb.drain (R : RocksDb) : Nat → R.Iter → List (Option (Except Str (Bytes × Bytes)))
  | 0, _ => []
  | n + 1, iter => (R.next iter).1 :: R.drain n (R.next iter).2

def nextReply : Option (Except Str (Bytes × Bytes)) → Reply
  | none => .term (.atom "end_of_iterator")
  | some (.ok (k, v)) => .term (.tuple [.ok, .binary k, .binary v])
  | some (.error e) => .term (.error e)

def nexts (id n : Nat) : List Call := List.replicate n (.next (.resource (.iterator id)))

namespace World

theorem next_reply {w : World R} {id : Nat} {iter : R.Iter}
    (here : w.iterators[id]? = some ⟨iter, false⟩) :
    w.next (.resource (.iterator id)) =
      (nextReply (R.next iter).1,
        { w with iterators := w.iterators.set id ⟨(R.next iter).2, false⟩ }) := by
  simp only [next, lockIterator, here]
  rcases R.next iter with ⟨_ | _ | ⟨k, v⟩, rest⟩ <;> rfl

theorem run_nexts {w : World R} {id : Nat} {iter : R.Iter} (n : Nat)
    (here : w.iterators[id]? = some ⟨iter, false⟩) :
    (w.run rt (nexts id n)).1 = (R.drain n iter).map nextReply := by
  induction n generalizing w iter with
  | zero => rfl
  | succ n ih =>
    have inside := (List.getElem?_eq_some_iff.mp here).1
    have step := next_reply here
    rw [nexts, List.replicate_succ, run_cons, World.step, step, RocksDb.drain, List.map_cons]
    have after : (w.iterators.set id ⟨(R.next iter).2, false⟩)[id]? =
        some ⟨(R.next iter).2, false⟩ := List.getElem?_set_self inside
    have rest := ih (w := { w with iterators := w.iterators.set id ⟨(R.next iter).2, false⟩ }) after
    rw [← rest]
    rfl

/-- The reply to a call, or, if that is an iterator, the replies of n calls of next. -/
def observed (rt : Rustler) (w : World R) (call : Call) (n : Nat) : List Reply :=
  match w.step rt call with
  | (.term (.tuple [.atom "ok", .resource (.iterator id)]), w) => (w.run rt (nexts id n)).1
  | (reply, _) => [reply]

theorem observed_iterator {w v : World R} {call : Call} {iter : R.Iter}
    (step : w.step rt call = v.release (.iterator iter)) (n : Nat) :
    w.observed rt call n = (R.drain n iter).map nextReply := by
  have fresh : (v.iterators ++ [⟨iter, false⟩])[v.iterators.length]? =
      some (⟨iter, false⟩ : IteratorResource R) := by
    simp
  simp only [observed, step]
  exact run_nexts n fresh

/-- Any other reply is observed as it is. -/
theorem observed_term {w v : World R} {call : Call} {t : Term}
    (step : w.step rt call = (.term t, v))
    (plain : ∀ id, t ≠ .tuple [.atom "ok", .resource (.iterator id)]) (n : Nat) :
    w.observed rt call n = [.term t] := by
  simp only [observed, step]
  split
  · rename_i id _ same
    cases same
    exact absurd rfl (plain id)
  · rename_i same
    cases same
    rfl

theorem observed_stop {w v : World R} {call : Call} {stop : Stop}
    (step : w.step rt call = (stop.reply, v)) (n : Nat) :
    w.observed rt call n = [stop.reply] := by
  simp only [observed, step]
  cases stop <;> rfl

end World
end ExRocket
