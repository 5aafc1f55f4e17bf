import Mathlib.Data.List.InsertIdx
import Mathlib.Data.List.MinMax
import Mathlib.Order.Defs.LinearOrder

/-! Callers that take read-write locks one after another and let go of them latest first.
A mutex is a lock that nobody takes shared. Which of the waiting callers gets a lock is up
to a policy, and the policy may be another one at every step. -/
namespace Locks

inductive Access where
  | shared | exclusive
  deriving DecidableEq, Repr

structure Guard (L : Type) where
  lock : L
  access : Access
  deriving DecidableEq, Repr

variable {L : Type}

/-- May be held at the same time. -/
def Guard.Beside (g h : Guard L) : Prop :=
  g.lock = h.lock → g.access = .shared ∧ h.access = .shared

structure Caller (L : Type) where
  /-- Latest first. -/
  held : List (Guard L)
  pending : List (Guard L)
  waiting : Bool

namespace Caller

def arriving (guards : List (Guard L)) : Caller L := ⟨[], guards, false⟩

/-- The guard it waits for. -/
def asked (c : Caller L) : Option (Guard L) := if c.waiting then c.pending.head? else none

/-- Each lock it takes ranks above those it has taken before. -/
def Ordered (rank : L → Nat) (c : Caller L) : Prop :=
  (c.held.reverse ++ c.pending).Pairwise fun g h => rank g.lock < rank h.lock

def Apart (c d : Caller L) : Prop := ∀ g ∈ c.held, ∀ h ∈ d.held, g.Beside h

def Finished (c : Caller L) : Prop := c.pending = [] ∧ c.held = []

end Caller

def heldBy (callers : List (Caller L)) : List (Guard L) := callers.flatMap Caller.held

def askedBy (callers : List (Caller L)) : List (Guard L) := callers.filterMap Caller.asked

/-- Whether a guard that has been asked for is given, by what is held and what is asked for:
never beside one that excludes it, and a lock that nobody holds goes to one of those who
wait for it. -/
structure Policy (L : Type) where
  admits : List (Guard L) → List (Guard L) → Guard L → Prop
  excludes : ∀ {held asked g}, admits held asked g → ∀ h ∈ held, g.Beside h
  serves : ∀ {held asked g}, g ∈ asked → (∀ h ∈ held, h.lock ≠ g.lock) →
    ∃ h ∈ asked, h.lock = g.lock ∧ admits held asked h

namespace Policy

def plain : Policy L where
  admits held _ g := ∀ h ∈ held, g.Beside h
  excludes := id
  serves {_ _ g} waits free := ⟨g, waits, rfl, fun h holds same => absurd same.symm (free h holds)⟩

/-- A reader waits behind every writer that waits. -/
def writersFirst : Policy L where
  admits held asked g := (∀ h ∈ held, g.Beside h) ∧
    (g.access = .shared → ∀ h ∈ asked, h.lock = g.lock → h.access = .shared)
  excludes := And.left
  serves {held asked g} waits free := by
    have beside : ∀ g' : Guard L, g'.lock = g.lock → ∀ h ∈ held, g'.Beside h := by
      intro g' same h holds meets
      exact absurd (meets.symm.trans same) (free h holds)
    by_cases writer : ∃ h ∈ asked, h.lock = g.lock ∧ h.access = .exclusive
    · obtain ⟨h, waits, same, exclusive⟩ := writer
      refine ⟨h, waits, same, beside h same, ?_⟩
      simp [exclusive]
    · refine ⟨g, waits, rfl, beside g rfl, ?_⟩
      intro _ h asks same
      cases access : h.access with
      | shared => rfl
      | exclusive => exact absurd ⟨h, asks, same, access⟩ writer

end Policy

/-- What one caller does. A panic, which gives up what is still pending, comes at any time
but while it waits. -/
inductive Moves (policy : Policy L) (callers : List (Caller L)) (c : Caller L) :
    Caller L → Prop where
  | ask (idle : c.waiting = false) (more : c.pending ≠ []) :
    Moves policy callers c { c with waiting := true }
  | take {g} (asked : c.asked = some g)
    (admitted : policy.admits (heldBy callers) (askedBy callers) g) :
    Moves policy callers c ⟨g :: c.held, c.pending.tail, false⟩
  | unwind (idle : c.waiting = false) : Moves policy callers c { c with pending := [] }
  | release {g rest} (finished : c.pending = []) (holds : c.held = g :: rest) :
    Moves policy callers c { c with held := rest }

/-- There is nothing that the caller can do, and it is not at its end. -/
def Policy.Blocked (policy : Policy L) (callers : List (Caller L)) (c : Caller L) : Prop :=
  ¬ c.Finished ∧ ∀ c', ¬ Moves policy callers c c'

inductive Step (policy : Policy L) (starts : List (Guard L) → Prop) :
    List (Caller L) → List (Caller L) → Prop where
  | arrive {callers guards} (start : starts guards) :
    Step policy starts callers (callers ++ [.arriving guards])
  | move {callers i c c'} (present : callers[i]? = some c) (moves : Moves policy callers c c') :
    Step policy starts callers (callers.set i c')
  | leave {callers i c} (present : callers[i]? = some c) (finished : c.Finished) :
    Step policy starts callers (callers.eraseIdx i)

/-- What a run reaches in so many steps. -/
inductive Reached (policy : Nat → Policy L) (starts : List (Guard L) → Prop) :
    Nat → List (Caller L) → Prop where
  | start : Reached policy starts 0 []
  | step {n callers callers'} (before : Reached policy starts n callers)
    (now : Step (policy n) starts callers callers') : Reached policy starts (n + 1) callers'

theorem Guard.Beside.symm {g h : Guard L} (beside : g.Beside h) : h.Beside g :=
  fun same => (beside same.symm).symm

theorem Caller.Apart.symm {c d : Caller L} (apart : c.Apart d) : d.Apart c :=
  fun h holds g holds' => (apart g holds' h holds).symm

theorem asked_eq_some {c : Caller L} {g : Guard L} :
    c.asked = some g ↔ c.waiting = true ∧ ∃ rest, c.pending = g :: rest := by
  simp [Caller.asked, List.head?_eq_some_iff]

theorem mem_heldBy {callers : List (Caller L)} {g : Guard L} :
    g ∈ heldBy callers ↔ ∃ c ∈ callers, g ∈ c.held :=
  List.mem_flatMap

theorem mem_askedBy {callers : List (Caller L)} {g : Guard L} :
    g ∈ askedBy callers ↔ ∃ c ∈ callers, c.asked = some g :=
  List.mem_filterMap

/-- A caller is blocked by waiting for a guard, and by nothing else. -/
theorem blocked_iff {policy : Policy L} {callers : List (Caller L)} {c : Caller L} :
    policy.Blocked callers c ↔
      ∃ g, c.asked = some g ∧ ¬ policy.admits (heldBy callers) (askedBy callers) g := by
  constructor
  · rintro ⟨unfinished, stuck⟩
    cases pending : c.pending with
    | nil =>
      cases held : c.held with
      | nil => exact absurd ⟨pending, held⟩ unfinished
      | cons g rest => exact absurd (.release pending held) (stuck _)
    | cons g rest =>
      cases waiting : c.waiting with
      | false => exact absurd (.ask waiting (by simp [pending])) (stuck _)
      | true =>
        have asked := asked_eq_some.mpr ⟨waiting, rest, pending⟩
        exact ⟨g, asked, fun admitted => stuck _ (.take asked admitted)⟩
  · rintro ⟨g, asked, refused⟩
    obtain ⟨waiting, rest, pending⟩ := asked_eq_some.mp asked
    constructor
    · simp [Caller.Finished, pending]
    · intro c' moves
      cases moves with
      | ask idle | unwind idle => simp [waiting] at idle
      | take asked' admitted =>
        cases Option.some.inj (asked.symm.trans asked')
        exact refused admitted
      | release finished => simp [pending] at finished

section Order

variable {policy : Policy L} {starts : List (Guard L) → Prop} {rank : L → Nat}
  {callers callers' : List (Caller L)} {c c' : Caller L}

theorem held_below (ordered : c.Ordered rank) {g h : Guard L} (holds : h ∈ c.held)
    (asks : c.asked = some g) : rank h.lock < rank g.lock := by
  obtain ⟨_, rest, pending⟩ := asked_eq_some.mp asks
  rw [Caller.Ordered, pending, List.pairwise_append] at ordered
  exact ordered.2.2 h (List.mem_reverse.mpr holds) g List.mem_cons_self

theorem moves_ordered (moves : Moves policy callers c c') (ordered : c.Ordered rank) :
    c'.Ordered rank := by
  cases moves with
  | ask => exact ordered
  | take asked =>
    obtain ⟨_, rest, pending⟩ := asked_eq_some.mp asked
    simpa [Caller.Ordered, pending] using ordered
  | unwind =>
    refine List.Pairwise.sublist ?_ ordered
    simp
  | release finished holds =>
    refine List.Pairwise.sublist ?_ ordered
    simp [finished, holds]

theorem step_ordered (step : Step policy starts callers callers')
    (sorted : ∀ guards, starts guards →
      guards.Pairwise fun g h => rank g.lock < rank h.lock)
    (ordered : ∀ c ∈ callers, c.Ordered rank) : ∀ c ∈ callers', c.Ordered rank := by
  cases step with
  | arrive start =>
    intro c member
    rcases List.mem_append.mp member with before | new
    · exact ordered c before
    · rw [List.mem_singleton.mp new]
      exact sorted _ start
  | move present moves =>
    intro c member
    rcases List.mem_or_eq_of_mem_set member with before | rfl
    · exact ordered c before
    · exact moves_ordered moves (ordered _ (List.mem_of_getElem? present))
  | leave => exact fun c member => ordered c (List.mem_of_mem_eraseIdx member)

/-- Take a caller that waits for a lock of the highest rank. Whoever holds that lock waits
for a higher one, and if nobody does, one of those who wait for it is let in. -/
theorem exists_not_blocked (policy : Policy L) (ordered : ∀ c ∈ callers, c.Ordered rank)
    (busy : callers ≠ []) : ∃ c ∈ callers, ¬ policy.Blocked callers c := by
  by_contra stuck
  have blocked : ∀ c ∈ callers, policy.Blocked callers c := by
    intro c member
    by_contra free
    exact stuck ⟨c, member, free⟩
  let height : Caller L → Nat := fun c => (c.asked.map fun g => rank g.lock).getD 0
  have height_eq : ∀ {c : Caller L} {g : Guard L}, c.asked = some g →
      height c = rank g.lock := by
    intro c g asks
    simp [height, asks]
  obtain ⟨top, highest⟩ :=
    Option.ne_none_iff_exists'.mp (mt (List.argmax_eq_none (f := height)).mp busy)
  have member := List.argmax_mem highest
  obtain ⟨g, asks, refused⟩ := blocked_iff.mp (blocked top member)
  by_cases taken : ∃ h ∈ heldBy callers, h.lock = g.lock
  · obtain ⟨h, holds, same⟩ := taken
    obtain ⟨d, among, holds⟩ := mem_heldBy.mp holds
    obtain ⟨g', asks', _⟩ := blocked_iff.mp (blocked d among)
    have above := held_below (ordered d among) holds asks'
    have below := List.le_of_mem_argmax among highest
    rw [height_eq asks, height_eq asks', ← same] at below
    omega
  · have free : ∀ h ∈ heldBy callers, h.lock ≠ g.lock :=
      fun h holds same => taken ⟨h, holds, same⟩
    obtain ⟨h, waits, _, admitted⟩ := policy.serves (mem_askedBy.mpr ⟨top, member, asks⟩) free
    obtain ⟨d, among, asks'⟩ := mem_askedBy.mp waits
    obtain ⟨g', asks'', refused'⟩ := blocked_iff.mp (blocked d among)
    cases Option.some.inj (asks'.symm.trans asks'')
    exact refused' admitted

theorem reached_ordered {policy : Nat → Policy L} {n : Nat}
    (reached : Reached policy starts n callers)
    (sorted : ∀ guards, starts guards →
      guards.Pairwise fun g h => rank g.lock < rank h.lock) :
    ∀ c ∈ callers, c.Ordered rank := by
  induction reached with
  | start => simp
  | step _ now ih => exact step_ordered now sorted ih

/-- Locks taken in the order of their ranks: no run comes to a halt. -/
theorem deadlock_free {policy : Nat → Policy L} {n : Nat}
    (reached : Reached policy starts n callers)
    (sorted : ∀ guards, starts guards →
      guards.Pairwise fun g h => rank g.lock < rank h.lock)
    (busy : callers ≠ []) : ∃ c ∈ callers, ¬ (policy n).Blocked callers c :=
  exists_not_blocked (policy n) (reached_ordered reached sorted) busy

end Order

section Exclusion

variable {policy : Policy L} {starts : List (Guard L) → Prop}
  {callers callers' : List (Caller L)} {c c' d : Caller L}

/-- No two callers hold guards that exclude each other. -/
def Exclusive (callers : List (Caller L)) : Prop :=
  ∀ ⦃i j : Nat⦄ ⦃c d : Caller L⦄, i ≠ j → callers[i]? = some c → callers[j]? = some d → c.Apart d

/-- A guard that a caller holds now it held before, or it took it beside all others. -/
theorem moves_held (moves : Moves policy callers c c') {g : Guard L} (holds : g ∈ c'.held) :
    g ∈ c.held ∨ ∀ h ∈ heldBy callers, g.Beside h := by
  cases moves with
  | ask | unwind => exact .inl holds
  | take _ admitted =>
    rcases List.mem_cons.mp holds with rfl | before
    · exact .inr (policy.excludes admitted)
    · exact .inl before
  | release _ held =>
    rw [held]
    exact .inl (List.mem_cons_of_mem _ holds)

theorem moves_apart (moves : Moves policy callers c c') (member : d ∈ callers)
    (apart : c.Apart d) : c'.Apart d := by
  intro g holds h holds'
  rcases moves_held moves holds with before | beside
  · exact apart g before h holds'
  · exact beside h (mem_heldBy.mpr ⟨d, member, holds'⟩)

theorem exclusive_set {i : Nat} (exclusive : Exclusive callers) (present : callers[i]? = some c)
    (keeps : ∀ d ∈ callers, c.Apart d → c'.Apart d) : Exclusive (callers.set i c') := by
  have beside : ∀ {j : Nat} {d : Caller L}, i ≠ j → (callers.set i c')[j]? = some d →
      c'.Apart d := by
    intro j d different there
    rw [List.getElem?_set_ne different] at there
    exact keeps d (List.mem_of_getElem? there) (exclusive different present there)
  have new : ∀ {d : Caller L}, (callers.set i c')[i]? = some d → d = c' := by
    intro d there
    obtain ⟨inside, _⟩ := List.getElem?_eq_some_iff.mp present
    simpa [List.getElem?_set_self inside, eq_comm] using there
  intro j k d e different first second
  by_cases here : i = j
  · subst here
    rw [new first]
    exact beside different second
  · by_cases there : i = k
    · subst there
      rw [new second]
      exact (beside here first).symm
    · rw [List.getElem?_set_ne here] at first
      rw [List.getElem?_set_ne there] at second
      exact exclusive different first second

theorem exclusive_concat {guards : List (Guard L)} (exclusive : Exclusive callers) :
    Exclusive (callers ++ [.arriving guards]) := by
  have old : ∀ {i : Nat} {c : Caller L}, (callers ++ [Caller.arriving guards])[i]? = some c →
      callers[i]? = some c ∨ c.held = [] := by
    intro i c there
    rw [List.getElem?_append] at there
    split at there
    · exact .inl there
    · right
      rw [List.mem_singleton.mp (List.mem_of_getElem? there)]
      rfl
  intro i j c d different first second
  rcases old first with before | free
  · rcases old second with before' | free
    · exact exclusive different before before'
    · simp [Caller.Apart, free]
  · simp [Caller.Apart, free]

theorem exclusive_eraseIdx {i : Nat} (exclusive : Exclusive callers) :
    Exclusive (callers.eraseIdx i) := by
  intro j k c d different first second
  rw [List.getElem?_eraseIdx] at first second
  split at first <;> split at second
  all_goals
    refine exclusive ?_ first second
    omega

theorem step_exclusive (step : Step policy starts callers callers')
    (exclusive : Exclusive callers) : Exclusive callers' := by
  cases step with
  | arrive => exact exclusive_concat exclusive
  | move present moves =>
    exact exclusive_set exclusive present fun d member => moves_apart moves member
  | leave => exact exclusive_eraseIdx exclusive

end Exclusion
end Locks
