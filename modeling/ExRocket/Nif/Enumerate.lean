import ExRocket.Library.Walk
import ExRocket.Nif.SnapshotReads

/-! What iterators enumerate. The five constructors read the same mode; each places a cursor
on the entries of its store, its family or its snapshot, and next walks it. -/
namespace ExRocket

open Rust Walk

def seekOf : IteratorMode → Seek Bytes
  | .start => .toFirst
  | .ending => .toLast
  | .forward key => .fromKey key
  | .reverse key => .uptoKey key

/-- The store's iterators are cursors over the entries of a family, or of a snapshot of it:
seeking respects the bounds, and an iterator that is finished stays finished. -/
structure RocksDb.Cursors (R : RocksDb) where
  entries : R.Store → Option R.Cf → List (Bytes × Bytes)
  snapEntries : R.Snap → Option R.Cf → List (Bytes × Bytes)
  Shows : R.Iter → Cursor Bytes Bytes → Prop
  iterator : ∀ s cf mode opts, Sorted (entries s cf) →
    Shows (R.iterator s cf mode opts) (place opts.lower opts.upper (entries s cf) (seekOf mode))
  snapIterator : ∀ snap cf mode, Sorted (snapEntries snap cf) →
    Shows (R.snapIterator snap cf mode) (place none none (snapEntries snap cf) (seekOf mode))
  next : ∀ iter c, Shows iter c →
    (R.next iter).1 = c.current.map .ok ∧ Shows (R.next iter).2 (advance c)

/-- The documented modes. -/
inductive ModeTerm : Term → IteratorMode → Prop where
  | start : ModeTerm (.tuple [.atom "start"]) .start
  | ending : ModeTerm (.tuple [.atom "end"]) .ending
  | fromKey (key : Bytes) : ModeTerm (.tuple [.atom "from", .binary key]) (.forward key)
  | forward (key : Bytes) :
      ModeTerm (.tuple [.atom "from", .binary key, .atom "forward"]) (.forward key)
  | reverse (key : Bytes) :
      ModeTerm (.tuple [.atom "from", .binary key, .atom "reverse"]) (.reverse key)

theorem modeTerm_decodes {t : Term} {mode : IteratorMode} (grammar : ModeTerm t mode) :
    iteratorMode t = .ok mode := by
  cases grammar <;> rfl

/-- An end of a range: a key, or an atom for an open end. -/
inductive Bound : Term → Option Bytes → Prop where
  | key (bytes : Bytes) : Bound (.binary bytes) (some bytes)
  | open_ (name : String) : Bound (.atom name) none

def entryReply (e : Bytes × Bytes) : Reply := .term (.tuple [.ok, .binary e.1, .binary e.2])

def endReply : Reply := .term (.atom "end_of_iterator")

/-- The first n replies: the entries in this order, then the end. -/
def repliesOf (entries : List (Bytes × Bytes)) (n : Nat) : List Reply :=
  (entries.map entryReply ++ List.replicate n endReply).take n

variable {rt : Rustler} {R : RocksDb}

theorem padded_replies (entries : List (Bytes × Bytes)) (n : Nat) :
    (padded n entries).map (fun e => nextReply (e.map .ok)) = repliesOf entries n := by
  rw [padded, repliesOf, List.map_take, List.map_append, List.map_map, List.map_replicate]
  rfl

theorem drain_shows (C : R.Cursors) {iter : R.Iter} {c : Cursor Bytes Bytes} (n : Nat)
    (shows_ : C.Shows iter c) : R.drain n iter = (yields n c).map (Option.map .ok) := by
  induction n generalizing iter c with
  | zero => rfl
  | succ n ih =>
    obtain ⟨item, rest⟩ := C.next iter c shows_
    rw [RocksDb.drain, yields, List.map_cons, item, ih rest]

namespace Memory

theorem keyLt_eq (a b : Bytes) : keyLt a b = decide (a < b) := by
  induction a generalizing b with
  | nil => cases b <;> simp [keyLt]
  | cons x a ih =>
    cases b with
    | nil => simp [keyLt]
    | cons y b =>
      rw [keyLt, ih, Bool.eq_iff_iff]
      simp [List.cons_lt_cons_iff]

theorem not_keyLt (a b : Bytes) : (!keyLt a b) = decide (b ≤ a) := by
  rw [keyLt_eq, ← decide_not]
  simp only [Std.not_lt]

theorem select_eq (all : Entries) (mode : IteratorMode) (opts : ReadOptions) :
    select all mode opts = selected opts.lower opts.upper all (seekOf mode) := by
  have inside : (all.filter fun entry =>
      opts.lower.all (fun lower => !keyLt entry.1 lower) &&
        opts.upper.all (fun upper => keyLt entry.1 upper)) =
      within opts.lower opts.upper all := by
    apply List.filter_congr
    intro entry _
    obtain ⟨lower, upper⟩ := opts
    cases lower <;> cases upper <;> simp only [Option.all, not_keyLt] <;> simp [keyLt_eq, Within]
  cases mode with
  | start => exact inside
  | ending => rw [select, inside, seekOf, selected]
  | forward key =>
    simp only [select, inside]
    simp only [not_keyLt, seekOf, selected]
  | reverse key =>
    simp only [select, inside]
    simp only [not_keyLt, seekOf, selected]

def cursors : rocksDb.Cursors where
  entries := entries
  snapEntries := entries
  Shows iter c := Remains c iter
  iterator s cf mode opts sorted := by
    change Remains _ (select _ _ _)
    rw [select_eq]
    exact place_remains sorted _ _ _
  snapIterator snap cf mode sorted := by
    change Remains _ (select _ _ _)
    rw [select_eq]
    exact place_remains sorted none none _
  next iter c remains := by
    have after := advance_remains remains
    rw [remains.current]
    cases iter with
    | nil => exact ⟨rfl, after⟩
    | cons entry rest => exact ⟨rfl, after⟩

def twoKeys : Store :=
  ⟨0, [("default".toList, [([97], [49]), ([99], [50])])], [], false⟩

end Memory

namespace World

variable {w v : World R}

theorem observed_cursor (C : R.Cursors) {call : Call} {iter : R.Iter}
    {entries : List (Bytes × Bytes)} {lower upper : Option Bytes} {seek : Seek Bytes}
    (sorted : Sorted entries) (step : w.step rt call = v.release (.iterator iter))
    (shows_ : C.Shows iter (place lower upper entries seek)) (n : Nat) :
    w.observed rt call n = repliesOf (selected lower upper entries seek) n := by
  rw [observed_iterator step, drain_shows C n shows_, yields_place sorted, List.map_map,
    ← padded_replies]
  rfl

/-- The constructors, on a live handle or snapshot and an existing family, with the entries
and the bounds they are about. -/
inductive Opens (C : R.Cursors) (w : World R) (mode : Term) :
    Call → List (Bytes × Bytes) → Option Bytes → Option Bytes → Prop where
  | iterator : w.handle.poisoned = false →
      Opens C w mode (.iterator mode) (C.entries w.handle.db none) none none
  | iteratorCf (cfName : Term) (name : Str) (cf : R.Cf) : w.handle.poisoned = false →
      cfName.decodeString = .ok name → R.cfHandle w.handle.db name = some cf →
      Opens C w mode (.iteratorCf cfName mode) (C.entries w.handle.db (some cf)) none none
  | snapshotIterator (id : Nat) (snap : R.Snap) : w.snapshots[id]? = some ⟨snap, false⟩ →
      Opens C w mode (.snapshotIterator (snapTerm id) mode) (C.snapEntries snap none) none none
  | snapshotIteratorCf (id : Nat) (snap : R.Snap) (cfName : Term) (name : Str) (cf : R.Cf) :
      w.handle.poisoned = false → w.snapshots[id]? = some ⟨snap, false⟩ →
      cfName.decodeString = .ok name → R.cfHandle w.handle.db name = some cf →
      Opens C w mode (.snapshotIteratorCf (snapTerm id) cfName mode)
        (C.snapEntries snap (some cf)) none none
  | iteratorRange (first last : Term) (lower upper : Option Bytes) : w.handle.poisoned = false →
      Bound first lower → Bound last upper →
      Opens C w mode (.iteratorRange mode first last (.map [])) (C.entries w.handle.db none)
        lower upper

/-- The bounds of the range replace whatever the read options set. -/
theorem iteratorRange_step {mode first last readOpts : Term} {m : IteratorMode}
    {lower upper : Option Bytes} {opts : RockerReadOptions} (healthy : w.handle.poisoned = false)
    (options : decodeReadOptions readOpts = .ok opts) (begins : Bound first lower)
    (ends : Bound last upper) (decodes : iteratorMode mode = .ok m) :
    w.step rt (.iteratorRange mode first last readOpts) =
      w.release (.iterator (R.iterator w.handle.db none m ⟨lower, upper⟩)) := by
  have opened : w.read (fun db =>
      return .iterator (R.iterator db none (← iteratorMode mode) ⟨lower, upper⟩)) =
        w.release (.iterator (R.iterator w.handle.db none m ⟨lower, upper⟩)) := by
    apply read_ok healthy
    simp only [decodes]
    rfl
  rw [step, iteratorRange, decoded_ok w _ options, ← opened]
  cases begins <;> cases ends <;> rfl

theorem opens_step (rt : Rustler) (C : R.Cursors) {mode : Term} {call : Call}
    {entries : List (Bytes × Bytes)} {lower upper : Option Bytes} {m : IteratorMode}
    (opens : Opens C w mode call entries lower upper) (decodes : iteratorMode mode = .ok m)
    (sorted : Sorted entries) :
    ∃ iter, w.step rt call = w.release (.iterator iter) ∧
      C.Shows iter (place lower upper entries (seekOf m)) := by
  cases opens with
  | iterator healthy =>
    refine ⟨_, ?_, C.iterator _ none m .default sorted⟩
    simp only [step, iterator]
    apply read_ok healthy
    simp only [decodes]
    rfl
  | iteratorCf cfName name cf healthy named known =>
    refine ⟨_, ?_, C.iterator _ (some cf) m .default sorted⟩
    rw [step, iteratorCf, decoded_ok w _ named]
    apply read_ok healthy
    simp only [known, decodes]
    rfl
  | snapshotIterator id snap taken =>
    refine ⟨_, ?_, C.snapIterator snap none m sorted⟩
    refine (onSnapshot_iterator w id mode).trans ?_
    apply lockSnapshot_ok taken
    simp only [decodes]
    rfl
  | snapshotIteratorCf id snap cfName name cf healthy taken named known =>
    refine ⟨_, ?_, C.snapIterator snap (some cf) m sorted⟩
    refine (onSnapshot_iteratorCf w id mode named).trans ?_
    rw [readSnapshot_eq, if_neg (by simp [healthy])]
    apply lockSnapshot_ok taken
    simp only [known, decodes]
    rfl
  | iteratorRange first last lower upper healthy begins ends =>
    exact ⟨_, iteratorRange_step healthy rfl begins ends decodes,
      C.iterator _ none m ⟨lower, upper⟩ sorted⟩

theorem iterators_enumerate (C : R.Cursors) {mode : Term} {call : Call}
    {entries : List (Bytes × Bytes)} {lower upper : Option Bytes} {m : IteratorMode}
    (opens : Opens C w mode call entries lower upper) (grammar : ModeTerm mode m)
    (sorted : Sorted entries) (n : Nat) :
    w.observed rt call n = repliesOf (match m with
      | .start => within lower upper entries
      | .ending => (within lower upper entries).reverse
      | .forward key => (within lower upper entries).filter fun e => decide (key ≤ e.1)
      | .reverse key => ((within lower upper entries).filter fun e => decide (e.1 ≤ key)).reverse)
      n := by
  obtain ⟨iter, step, shows_⟩ := opens_step rt C opens (modeTerm_decodes grammar) sorted
  rw [observed_cursor C sorted step shows_]
  cases m <;> rfl

theorem iterators_enumerate_from_between :
    (opened Memory.twoKeys : World Memory.rocksDb).observed Memory.rustler
      (.iteratorRange (.tuple [.atom "from", .binary [98]]) (.atom "undefined") (.binary [100])
        (.map [])) 3 = repliesOf [([99], [50])] 3 :=
  (iterators_enumerate Memory.cursors (.iteratorRange _ _ _ _ rfl (.open_ _) (.key _))
    (.fromKey _) (by decide) 3).trans rfl

end World

end ExRocket
