import ExRocket.Library.PrefixScan
import ExRocket.Nif.Enumerate

/-! Prefix iterators. The store stops one only where the configured extractor tells two keys
apart, and without an extractor never, so what comes depends on the other keys of the store. -/
namespace ExRocket

open Rust Walk PrefixScan

/-- The store's prefix iterators: they seek to the prefix, and end at the first key that the
extractor of the family, if it has one, maps to another prefix. -/
structure RocksDb.Prefixes (R : RocksDb) extends R.Cursors where
  /-- The length of the fixed prefixes that the extractor takes. -/
  extractor : R.Store → Option R.Cf → Option Nat
  prefixIterator : ∀ s cf start, Sorted (entries s cf) →
    Shows (R.prefixIterator s cf start)
      (place none none (scan (extractor s cf) start (entries s cf)) .toFirst)

theorem selected_all (entries : List (Bytes × Bytes)) :
    selected none none entries .toFirst = entries := by
  have inside : ∀ e ∈ entries, decide (Within (none : Option Bytes) none e.1) = true := by
    intro e _
    simp [Within]
  exact List.filter_eq_self.mpr inside

def replyEntry : Reply → Option (Bytes × Bytes)
  | .term (.tuple [.atom "ok", .binary k, .binary v]) => some (k, v)
  | _ => none

theorem repliesOf_entries {entries : List (Bytes × Bytes)} {n : Nat}
    (enough : entries.length ≤ n) : (repliesOf entries n).filterMap replyEntry = entries := by
  have told : replyEntry ∘ entryReply = some := rfl
  have end_ : replyEntry endReply = none := rfl
  rw [repliesOf, List.take_append, List.length_map, List.take_of_length_le (by simp [enough]),
    List.take_replicate, List.filterMap_append, List.filterMap_map, told, List.filterMap_some,
    List.filterMap_replicate_of_none end_, List.append_nil]

/-- Enough replies of an iterator tell its entries. -/
theorem repliesOf_injective {entries entries' : List (Bytes × Bytes)}
    (same : ∀ n, repliesOf entries n = repliesOf entries' n) : entries = entries' := by
  have told := repliesOf_entries (Nat.le_add_right entries.length entries'.length)
  have told' := repliesOf_entries (Nat.le_add_left entries'.length entries.length)
  rw [same] at told
  exact told.symm.trans told'

variable {rt : Rustler} {R : RocksDb}

namespace World

variable {w : World R}

/-- The two constructors, on a live handle and an existing family. -/
inductive OpensPrefix (w : World R) (start : Bytes) : Call → Option R.Cf → Prop where
  | prefixIterator : w.handle.poisoned = false →
      OpensPrefix w start (.prefixIterator (.binary start)) none
  | prefixIteratorCf (cfName : Term) (name : Str) (cf : R.Cf) : w.handle.poisoned = false →
      cfName.decodeString = .ok name → R.cfHandle w.handle.db name = some cf →
      OpensPrefix w start (.prefixIteratorCf cfName (.binary start)) (some cf)

theorem opensPrefix_step (rt : Rustler) {start : Bytes} {call : Call} {cf : Option R.Cf}
    (opens : OpensPrefix w start call cf) :
    w.step rt call = w.release (.iterator (R.prefixIterator w.handle.db cf start)) := by
  cases opens with
  | prefixIterator healthy =>
    simp only [step, prefixIterator]
    exact read_ok healthy rfl
  | prefixIteratorCf cfName name cf healthy named known =>
    rw [step, prefixIteratorCf, decoded_ok w _ named]
    apply read_ok healthy
    simp only [known]
    rfl

theorem prefix_observed (P : R.Prefixes) {start : Bytes} {call : Call} {cf : Option R.Cf}
    (opens : OpensPrefix w start call cf) (sorted : Sorted (P.entries w.handle.db cf)) (n : Nat) :
    w.observed rt call n =
      repliesOf (scan (P.extractor w.handle.db cf) start (P.entries w.handle.db cf)) n := by
  have shows_ := P.prefixIterator w.handle.db cf start sorted
  rw [observed_cursor P.toCursors (scan_sorted sorted _ _) (opensPrefix_step rt opens) shows_,
    selected_all]

theorem prefix_iterators_exact_iff (P : R.Prefixes) {start : Bytes} {call : Call}
    {cf : Option R.Cf} (opens : OpensPrefix w start call cf)
    (sorted : Sorted (P.entries w.handle.db cf))
    (long : ∀ n, P.extractor w.handle.db cf = some n → n ≤ start.length) :
    (∀ n, w.observed rt call n =
        repliesOf ((P.entries w.handle.db cf).filter fun e => decide (start <+: e.1)) n) ↔
      ∀ e ∈ P.entries w.handle.db cf, start ≤ e.1 →
        (∀ n, P.extractor w.handle.db cf = some n → e.1.take n = start.take n) →
        start <+: e.1 := by
  simp only [prefix_observed P opens sorted]
  refine Iff.trans ?_ (scan_exact_iff sorted long)
  constructor
  · exact repliesOf_injective
  · intro same n
    rw [same]

/-- With an extractor of just the length of the prefix nothing else comes. -/
theorem prefix_iterators_exact_of_length (P : R.Prefixes) {start : Bytes} {call : Call}
    {cf : Option R.Cf} (opens : OpensPrefix w start call cf)
    (sorted : Sorted (P.entries w.handle.db cf))
    (fixed : P.extractor w.handle.db cf = some start.length) (n : Nat) :
    w.observed rt call n =
      repliesOf ((P.entries w.handle.db cf).filter fun e => decide (start <+: e.1)) n := by
  have long : ∀ n, P.extractor w.handle.db cf = some n → n ≤ start.length := by
    intro n given
    rw [fixed] at given
    cases given
    exact Nat.le_refl _
  rw [prefix_observed P opens sorted, (scan_exact_iff sorted long).mpr]
  intro e _ _ shares
  have first := shares _ fixed
  rw [List.take_length] at first
  rw [← first]
  exact List.take_prefix _ _

end World

namespace Memory

theorem select_forward {all : Entries} (sorted : Sorted all) (start : Bytes) :
    select all (.forward start) .default = scan none start all := by
  have everything : within none none all = all := selected_all all
  rw [select_eq, scan_eq sorted]
  change (within none none all).filter _ = _
  rw [everything]
  simp [Shares]

/-- The store in memory has no extractor. -/
def prefixes : rocksDb.Prefixes where
  toCursors := cursors
  extractor _ _ := none
  prefixIterator s cf start sorted := by
    have remains := place_remains (scan_sorted sorted none start) none none .toFirst
    rw [selected_all] at remains
    exact (congrArg (Remains _) (select_forward sorted start)).mpr remains

end Memory

namespace World

/-- The entries a and c, and the prefix c. -/
theorem prefix_iterators_exact_iff_last :
    (∀ n, (opened Memory.twoKeys : World Memory.rocksDb).observed Memory.rustler
        (.prefixIterator (.binary [99])) n =
        repliesOf ((Memory.prefixes.entries Memory.twoKeys none).filter
          fun e => decide ([99] <+: e.1)) n) ↔
      ∀ e ∈ Memory.prefixes.entries Memory.twoKeys none, [99] ≤ e.1 →
        (∀ n, Memory.prefixes.extractor Memory.twoKeys none = some n →
          e.1.take n = List.take n [99]) → [99] <+: e.1 :=
  prefix_iterators_exact_iff Memory.prefixes (.prefixIterator rfl) (by decide)
    fun _ given => by cases given

/- The prefix a: the entry c comes as well. -/
theorem prefix_iterator_runs_on :
    ∃ n, (opened Memory.twoKeys : World Memory.rocksDb).observed Memory.rustler
        (.prefixIterator (.binary [97])) n ≠
      repliesOf ((Memory.prefixes.entries Memory.twoKeys none).filter
        fun e => decide ([97] <+: e.1)) n := by
  refine ⟨2, ?_⟩
  intro same
  have second := congrArg (fun replies => replies.filterMap replyEntry) same
  revert second
  decide

end World
end ExRocket
