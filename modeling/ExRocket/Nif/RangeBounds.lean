import ExRocket.Nif.Enumerate

/-! The bounds that reach the store from iterator_range. The range is set last and replaces
both bounds of the read options, so these are honoured only where the range implies them. -/
namespace ExRocket

open Rust Walk

theorem mem_repliesOf {entries : List (Bytes × Bytes)} {e : Bytes × Bytes} {n : Nat}
    (seen : entryReply e ∈ repliesOf entries n) : e ∈ entries := by
  have shown := List.mem_of_mem_take seen
  rcases List.mem_append.mp shown with entry | past
  · obtain ⟨e', member, same⟩ := List.mem_map.mp entry
    cases e
    cases e'
    cases same
    exact member
  · have same := List.eq_of_mem_replicate past
    cases same

theorem repliesOf_length (entries : List (Bytes × Bytes)) :
    repliesOf entries entries.length = entries.map entryReply :=
  List.take_left' (List.length_map entryReply)

/-- The bounds that read options name, as bytes. -/
def RockerReadOptions.Bounds (opts : RockerReadOptions) : Bytes → Prop :=
  Within (opts.iterateLowerBound.map intoBytes) (opts.iterateUpperBound.map intoBytes)

instance decidableBounds (opts : RockerReadOptions) : DecidablePred opts.Bounds :=
  fun key => decidableWithin _ _ key

variable {rt : Rustler} {R : RocksDb}

namespace World

variable {w : World R}

/-- What a range promises together with its read options: the entries that come lie within
both, and from the start all of these come. -/
structure HonoursRange (rt : Rustler) (w : World R) (call : Call) (m : IteratorMode)
    (entries : List (Bytes × Bytes)) (lower upper : Option Bytes) (opts : RockerReadOptions) :
    Prop where
  yielded : ∀ n e, entryReply e ∈ w.observed rt call n → Within lower upper e.1 ∧ opts.Bounds e.1
  complete : m = .start → ∀ n, w.observed rt call n =
    repliesOf (entries.filter fun e => decide (Within lower upper e.1 ∧ opts.Bounds e.1)) n

/-- Whatever the read options say, only the range reaches the store. -/
theorem iteratorRange_observed (rt : Rustler) (C : R.Cursors) {mode first last readOpts : Term}
    {m : IteratorMode} {lower upper : Option Bytes} {opts : RockerReadOptions}
    (healthy : w.handle.poisoned = false) (options : decodeReadOptions readOpts = .ok opts)
    (begins : Bound first lower) (ends : Bound last upper) (decodes : iteratorMode mode = .ok m)
    (sorted : Sorted (C.entries w.handle.db none)) (n : Nat) :
    w.observed rt (.iteratorRange mode first last readOpts) n =
      repliesOf (selected lower upper (C.entries w.handle.db none) (seekOf m)) n :=
  observed_cursor C sorted (iteratorRange_step healthy options begins ends decodes)
    (C.iterator _ none m ⟨lower, upper⟩ sorted) n

theorem range_honours_iff (C : R.Cursors) {mode first last readOpts : Term} {m : IteratorMode}
    {lower upper : Option Bytes} {opts : RockerReadOptions} (healthy : w.handle.poisoned = false)
    (options : decodeReadOptions readOpts = .ok opts) (begins : Bound first lower)
    (ends : Bound last upper) (decodes : iteratorMode mode = .ok m)
    (sorted : Sorted (C.entries w.handle.db none)) :
    w.HonoursRange rt (.iteratorRange mode first last readOpts) m (C.entries w.handle.db none)
        lower upper opts ↔
      ∀ e ∈ C.entries w.handle.db none, Within lower upper e.1 → (seekOf m).Admits e.1 →
        opts.Bounds e.1 := by
  have observed := iteratorRange_observed rt C healthy options begins ends decodes sorted
  constructor
  · intro honours e member inside admits
    have chosen : e ∈ selected lower upper (C.entries w.handle.db none) (seekOf m) :=
      mem_selected.mpr ⟨member, inside, admits⟩
    have seen := List.mem_map_of_mem (f := entryReply) chosen
    rw [← repliesOf_length, ← observed] at seen
    exact (honours.yielded _ e seen).2
  · intro implied
    constructor
    · intro n e seen
      rw [observed] at seen
      obtain ⟨member, inside, admits⟩ := mem_selected.mp (mem_repliesOf seen)
      exact ⟨inside, implied e member inside admits⟩
    · rintro rfl n
      simp only [observed, seekOf, selected, within]
      congr 1
      apply List.filter_congr
      intro e member
      simp only [decide_eq_decide]
      exact ⟨fun inside => ⟨inside, implied e member inside trivial⟩, And.left⟩

theorem range_honours_iff_wide :
    (opened Memory.twoKeys : World Memory.rocksDb).HonoursRange Memory.rustler
        (.iteratorRange (.tuple [.atom "start"]) (.binary [98]) (.atom "undefined")
          (.map [(.atom "iterate_upper_bound", .binary [100])]))
        .start (Memory.entries Memory.twoKeys none) (some [98]) none ⟨some ['d'], none⟩ :=
  (range_honours_iff Memory.cursors rfl rfl (.key _) (.open_ _) rfl (by decide)).mpr (by decide)

/- The keys are a and c and the upper bound is b; c comes all the same. -/
theorem range_ignores_bound :
    (opened Memory.twoKeys : World Memory.rocksDb).observed Memory.rustler
        (.iteratorRange (.tuple [.atom "start"]) (.atom "undefined") (.atom "undefined")
          (.map [(.atom "iterate_upper_bound", .binary [98])])) 3 =
      [entryReply ([97], [49]), entryReply ([99], [50]), endReply] ∧
    ¬ (opened Memory.twoKeys : World Memory.rocksDb).HonoursRange Memory.rustler
        (.iteratorRange (.tuple [.atom "start"]) (.atom "undefined") (.atom "undefined")
          (.map [(.atom "iterate_upper_bound", .binary [98])]))
        .start (Memory.entries Memory.twoKeys none) none none ⟨some ['b'], none⟩ := by
  refine ⟨rfl, ?_⟩
  intro honours
  have inside := honours.yielded 2 ([99], [50]) (List.mem_cons_of_mem _ List.mem_cons_self)
  revert inside
  decide

end World
end ExRocket
