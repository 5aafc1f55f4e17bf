import ExRocket.Library.Locks
import Mathlib.Data.List.Perm.Basic
import Mathlib.Logic.Hydra

/-! Programs that take guards one after another, work under them on a world that they share,
and let go of them only at their end. Run at the same time, step by step, they reply as if
they had run one after another, in the order in which they ended. Here is what they are, and
that each of them comes to its end. -/
namespace TwoPhase

open Locks

inductive Program (W L ρ : Type) where
  | take (g : Guard L) (rest : Program W L ρ)
  /-- One step; how it goes on depends on the world before the step. -/
  | act (change : W → W) (rest : W → Program W L ρ)
  | finish (reply : W → ρ × W)

variable {W L ρ ι : Type}

/-- The outcome of a program that runs alone. -/
def Program.run : Program W L ρ → W → ρ × W
  | .take _ rest, w => rest.run w
  | .act change rest, w => (rest w).run (change w)
  | .finish reply, w => reply w

/-- A program takes these guards in this order, unless it ends before. -/
inductive Acquires : List (Guard L) → Program W L ρ → Prop where
  | take {g guards rest} (takes : Acquires guards rest) : Acquires (g :: guards) (.take g rest)
  | act {guards change rest} (takes : ∀ w, Acquires guards (rest w)) :
      Acquires guards (.act change rest)
  | finish {guards reply} : Acquires guards (.finish reply)

theorem Acquires.first {guards : List (Guard L)} {g : Guard L} {rest : Program W L ρ}
    (takes : Acquires guards (.take g rest)) : ∃ more, guards = g :: more ∧ Acquires more rest := by
  cases takes with
  | take takes => exact ⟨_, rfl, takes⟩

theorem Acquires.acting {guards : List (Guard L)} {change : W → W} {rest : W → Program W L ρ}
    (takes : Acquires guards (.act change rest)) (w : W) : Acquires guards (rest w) := by
  cases takes with
  | act takes => exact takes w

/-- What the locks guard, and which locks there are. -/
structure Memory (W L : Type) where
  same : L → W → W → Prop
  same_equivalence : ∀ l, Equivalence (same l)
  known : W → L → Prop

def Untouched (held : List (Guard L)) (l : L) : Prop := ∀ g ∈ held, g.lock = l → g.access = .shared

namespace Memory

variable (m : Memory W L)

def Agree (held : List (Guard L)) (w v : W) : Prop := ∀ g ∈ held, m.same g.lock w v

def Level (w v : W) : Prop := ∀ l, m.known w l ↔ m.known v l

/-- A program does under its guards only what they allow: what it does depends on what they
guard, and it changes what one of them guards exclusively. Only at its end may it add to
the world. -/
inductive Framed : List (Guard L) → Program W L ρ → Prop where
  | take {held g rest} (framed : Framed (g :: held) rest) : Framed held (.take g rest)
  | act {held change rest}
    (depends : ∀ w v l, m.Agree held w v → m.same l w v → m.same l (change w) (change v))
    (keeps : ∀ w l, Untouched held l → m.same l (change w) w)
    (level : ∀ w, m.Level (change w) w)
    (chooses : ∀ w v, m.Agree held w v → rest w = rest v)
    (framed : ∀ w, Framed held (rest w)) : Framed held (.act change rest)
  | finish {held} {reply : W → ρ × W}
    (depends : ∀ w v, m.Agree held w v → m.Level w v → (reply w).1 = (reply v).1 ∧
      m.Level (reply w).2 (reply v).2 ∧ ∀ l, m.same l w v → m.same l (reply w).2 (reply v).2)
    (keeps : ∀ w l, m.known w l → Untouched held l → m.same l (reply w).2 w)
    (grows : ∀ w l, m.known w l → m.known (reply w).2 l) : Framed held (.finish reply)

theorem refl (l : L) (w : W) : m.same l w w := (m.same_equivalence l).refl w

variable {m}

theorem symm {l : L} {w v : W} (same : m.same l w v) : m.same l v w :=
  (m.same_equivalence l).symm same

theorem trans {l : L} {u w v : W} (first : m.same l u w) (second : m.same l w v) :
    m.same l u v :=
  (m.same_equivalence l).trans first second

theorem Agree.symm {held : List (Guard L)} {w v : W} (agree : m.Agree held w v) :
    m.Agree held v w :=
  fun g holds => Memory.symm (agree g holds)

theorem Agree.trans {held : List (Guard L)} {u w v : W} (first : m.Agree held u w)
    (second : m.Agree held w v) : m.Agree held u v :=
  fun g holds => Memory.trans (first g holds) (second g holds)

theorem Level.refl (w : W) : m.Level w w := fun _ => Iff.rfl

theorem Level.symm {w v : W} (level : m.Level w v) : m.Level v w := fun l => (level l).symm

theorem Level.trans {u w v : W} (first : m.Level u w) (second : m.Level w v) : m.Level u v :=
  fun l => (first l).trans (second l)

end Memory

/-- The calls that are answered: the guards of each, and the program that takes them. -/
structure Service (W L ρ ι : Type) where
  guards : ι → List (Guard L)
  code : ι → Program W L ρ
  takes : ∀ call, Acquires (guards call) (code call)

/-- The replies of calls that run one after another, and the world that they leave. -/
def Service.serial (service : Service W L ρ ι) : W → List ι → List ρ × W
  | w, [] => ([], w)
  | w, call :: calls =>
    let (reply, w) := (service.code call).run w
    let (replies, w) := serial service w calls
    (reply :: replies, w)

/-- A call in progress. -/
structure Job (W L ρ ι : Type) where
  ticket : Nat
  call : ι
  locks : Caller L
  /-- What is left of its program. -/
  rest : Program W L ρ
  reply : Option ρ

namespace Job

def asking (j : Job W L ρ ι) : Job W L ρ ι :=
  { j with locks := ⟨j.locks.held, j.locks.pending, true⟩ }

def taking (j : Job W L ρ ι) (g : Guard L) (rest : Program W L ρ) : Job W L ρ ι :=
  { j with locks := ⟨g :: j.locks.held, j.locks.pending.tail, false⟩, rest := rest }

def ended (j : Job W L ρ ι) (reply : ρ) : Job W L ρ ι :=
  { j with locks := ⟨j.locks.held, [], j.locks.waiting⟩, reply := some reply }

def releasing (j : Job W L ρ ι) (held : List (Guard L)) : Job W L ρ ι :=
  { j with locks := ⟨held, j.locks.pending, j.locks.waiting⟩ }

end Job

structure Answer (ρ ι : Type) where
  ticket : Nat
  call : ι
  reply : ρ

structure Session (W L ρ ι : Type) where
  world : W
  arrived : Nat
  jobs : List (Job W L ρ ι)
  /-- The calls that have ended, in this order. -/
  history : List (Answer ρ ι)

namespace Session

def opened (w : W) : Session W L ρ ι := ⟨w, 0, [], []⟩

def locks (s : Session W L ρ ι) : List (Caller L) := s.jobs.map Job.locks

def update (s : Session W L ρ ι) (i : Nat) (j : Job W L ρ ι) (w : W) : Session W L ρ ι :=
  ⟨w, s.arrived, s.jobs.set i j, s.history⟩

/-- The call replies. -/
def reply (s : Session W L ρ ι) (i : Nat) (j : Job W L ρ ι) (r : ρ) (w : W) : Session W L ρ ι :=
  ⟨w, s.arrived, s.jobs.set i (j.ended r), s.history ++ [⟨j.ticket, j.call, r⟩]⟩

def leave (s : Session W L ρ ι) (i : Nat) : Session W L ρ ι :=
  ⟨s.world, s.arrived, s.jobs.eraseIdx i, s.history⟩

def arrive (s : Session W L ρ ι) (j : Job W L ρ ι) : Session W L ρ ι :=
  ⟨s.world, s.arrived + 1, s.jobs ++ [j], s.history⟩

end Session

/-- One step of a call in progress. -/
inductive Works (policy : Policy L) (s : Session W L ρ ι) : Session W L ρ ι → Prop where
  | ask {i j g rest} (present : s.jobs[i]? = some j) (next : j.rest = .take g rest)
    (idle : j.locks.waiting = false) : Works policy s (s.update i j.asking s.world)
  | take {i j g rest} (present : s.jobs[i]? = some j) (next : j.rest = .take g rest)
    (waits : j.locks.waiting = true)
    (admitted : policy.admits (heldBy s.locks) (askedBy s.locks) g) :
    Works policy s (s.update i (j.taking g rest) s.world)
  | act {i j change rest} (present : s.jobs[i]? = some j) (next : j.rest = .act change rest) :
    Works policy s (s.update i { j with rest := rest s.world } (change s.world))
  | finish {i j reply} (present : s.jobs[i]? = some j) (next : j.rest = .finish reply)
    (unanswered : j.reply = none) :
    Works policy s (s.reply i j (reply s.world).1 (reply s.world).2)
  | release {i j r g held} (present : s.jobs[i]? = some j) (answered : j.reply = some r)
    (holds : j.locks.held = g :: held) :
    Works policy s (s.update i (j.releasing held) s.world)
  | leave {i j r} (present : s.jobs[i]? = some j) (answered : j.reply = some r)
    (free : j.locks.held = []) : Works policy s (s.leave i)

def Service.job (service : Service W L ρ ι) (ticket : Nat) (call : ι) : Job W L ρ ι :=
  ⟨ticket, call, .arriving (service.guards call), service.code call, none⟩

inductive Step (service : Service W L ρ ι) (starts : W → ι → Prop) (policy : Policy L) :
    Session W L ρ ι → Session W L ρ ι → Prop where
  | arrive {s call} (start : starts s.world call) :
    Step service starts policy s (s.arrive (service.job s.arrived call))
  | work {s s'} (works : Works policy s s') : Step service starts policy s s'

/-- What so many steps lead to. -/
inductive Leads (service : Service W L ρ ι) (starts : W → ι → Prop) (policy : Nat → Policy L)
    (s : Session W L ρ ι) : Nat → Session W L ρ ι → Prop where
  | start : Leads service starts policy s 0 s
  | step {n s' s''} (before : Leads service starts policy s n s')
    (now : Step service starts (policy n) s' s'') : Leads service starts policy s (n + 1) s''

theorem serial_append (service : Service W L ρ ι) (w : W) (calls more : List ι) :
    service.serial w (calls ++ more) =
      ((service.serial w calls).1 ++ (service.serial (service.serial w calls).2 more).1,
        (service.serial (service.serial w calls).2 more).2) := by
  induction calls generalizing w with
  | nil => rfl
  | cons call calls ih => simp only [List.cons_append, Service.serial, ih]

theorem serial_length (service : Service W L ρ ι) (w : W) (calls : List ι) :
    (service.serial w calls).1.length = calls.length := by
  induction calls generalizing w with
  | nil => rfl
  | cons call calls ih => simp only [Service.serial, List.length_cons, ih]

theorem set_at {α : Type} {xs : List α} {i k : Nat} {x y : α} (there : (xs.set i x)[k]? = some y) :
    (k = i ∧ y = x) ∨ (k ≠ i ∧ xs[k]? = some y) := by
  by_cases here : i = k
  · subst here
    have inside := (List.getElem?_eq_some_iff.mp there).1
    rw [List.length_set] at inside
    rw [List.getElem?_set_self inside] at there
    exact .inl ⟨rfl, (Option.some.inj there).symm⟩
  · rw [List.getElem?_set_ne here] at there
    exact .inr ⟨Ne.symm here, there⟩

section Jobs

variable {service : Service W L ρ ι} {starts : W → ι → Prop} {policy : Policy L}
  {s s' : Session W L ρ ι}

/-- What holds of a call in progress at any time. -/
structure Job.Sound (j : Job W L ρ ι) : Prop where
  takes : Acquires j.locks.pending j.rest
  waits : j.locks.waiting = true → ∃ g rest, j.rest = .take g rest
  answered : ∀ r, j.reply = some r → j.locks.pending = [] ∧ ∃ reply, j.rest = .finish reply

theorem Job.Sound.pending {j : Job W L ρ ι} {g : Guard L} {rest : Program W L ρ}
    (sound : j.Sound) (next : j.rest = .take g rest) :
    ∃ guards, j.locks.pending = g :: guards ∧ Acquires guards rest := by
  apply Acquires.first
  rw [← next]
  exact sound.takes

theorem Job.Sound.unanswered {j : Job W L ρ ι} {g : Guard L} {rest : Program W L ρ}
    (sound : j.Sound) (next : j.rest = .take g rest) : j.reply = none := by
  cases reply : j.reply with
  | none => rfl
  | some r =>
    obtain ⟨guards, pending, _⟩ := sound.pending next
    obtain ⟨none, _⟩ := sound.answered r reply
    rw [pending] at none
    cases none

theorem Job.Sound.idle {j : Job W L ρ ι} (sound : j.Sound)
    (next : ∀ g rest, j.rest ≠ .take g rest) : j.locks.waiting = false := by
  cases waiting : j.locks.waiting with
  | false => rfl
  | true =>
    obtain ⟨g, rest, same⟩ := sound.waits waiting
    exact absurd same (next g rest)

theorem sound_asking {j : Job W L ρ ι} {g : Guard L} {rest : Program W L ρ}
    (sound : j.Sound) (next : j.rest = .take g rest) : j.asking.Sound :=
  ⟨sound.takes, fun _ => ⟨g, rest, next⟩, sound.answered⟩

theorem sound_taking {j : Job W L ρ ι} {g : Guard L} {rest : Program W L ρ}
    (sound : j.Sound) (next : j.rest = .take g rest) : (j.taking g rest).Sound := by
  obtain ⟨guards, pending, takes⟩ := sound.pending next
  constructor
  · simpa [Job.taking, pending] using takes
  · simp [Job.taking]
  · simp [Job.taking, sound.unanswered next]

theorem sound_acting {j : Job W L ρ ι} {change : W → W} {rest : W → Program W L ρ}
    (sound : j.Sound) (next : j.rest = .act change rest) (w : W) :
    Job.Sound { j with rest := rest w } := by
  have idle : j.locks.waiting = false := by
    apply sound.idle
    simp [next]
  constructor
  · have takes := sound.takes
    rw [next] at takes
    exact takes.acting w
  · simp [idle]
  · intro r answered
    obtain ⟨_, reply, same⟩ := sound.answered r answered
    rw [next] at same
    cases same

theorem sound_ended {j : Job W L ρ ι} {reply : W → ρ × W} (sound : j.Sound)
    (next : j.rest = .finish reply) (r : ρ) : (j.ended r).Sound := by
  constructor
  · rw [Job.ended, next]
    exact .finish
  · exact sound.waits
  · exact fun _ _ => ⟨rfl, reply, next⟩

theorem sound_releasing {j : Job W L ρ ι} (sound : j.Sound) (held : List (Guard L)) :
    (j.releasing held).Sound :=
  ⟨sound.takes, sound.waits, sound.answered⟩

theorem sound_arriving (service : Service W L ρ ι) (ticket : Nat) (call : ι) :
    (service.job ticket call).Sound := by
  constructor
  · exact service.takes call
  · simp [Service.job, Caller.arriving]
  · simp [Service.job]

theorem works_sound (works : Works policy s s') (sound : ∀ j ∈ s.jobs, j.Sound) :
    ∀ j ∈ s'.jobs, j.Sound := by
  have updated : ∀ {i : Nat} {j j' : Job W L ρ ι}, s.jobs[i]? = some j → (j.Sound → j'.Sound) →
      ∀ k ∈ s.jobs.set i j', k.Sound := by
    intro i j j' present keeps k member
    rcases List.mem_or_eq_of_mem_set member with before | rfl
    · exact sound k before
    · exact keeps (sound j (List.mem_of_getElem? present))
  cases works with
  | ask present next => exact updated present fun own => sound_asking own next
  | take present next => exact updated present fun own => sound_taking own next
  | act present next => exact updated present fun own => sound_acting own next _
  | finish present next => exact updated present fun own => sound_ended own next _
  | release present => exact updated present fun own => sound_releasing own _
  | leave => exact fun j member => sound j (List.mem_of_mem_eraseIdx member)

theorem step_sound (step : Step service starts policy s s') (sound : ∀ j ∈ s.jobs, j.Sound) :
    ∀ j ∈ s'.jobs, j.Sound := by
  cases step with
  | arrive =>
    intro j member
    rcases List.mem_append.mp member with before | new
    · exact sound j before
    · rw [List.mem_singleton.mp new]
      exact sound_arriving service _ _
  | work works => exact works_sound works sound

theorem locks_at {i : Nat} {j : Job W L ρ ι} (present : s.jobs[i]? = some j) :
    s.locks[i]? = some j.locks := by
  simp [Session.locks, present]

theorem locks_update (s : Session W L ρ ι) (i : Nat) (j : Job W L ρ ι) (w : W) :
    (s.update i j w).locks = s.locks.set i j.locks := by
  simp [Session.locks, Session.update]

/-- What becomes of the guards is what the locks allow. -/
theorem works_locks (works : Works policy s s') (sound : ∀ j ∈ s.jobs, j.Sound)
    (asked : List (Guard L) → Prop) :
    s'.locks = s.locks ∨ Locks.Step policy asked s.locks s'.locks := by
  cases works with
  | @ask i j g rest present next idle =>
    right
    obtain ⟨guards, pending, _⟩ := (sound j (List.mem_of_getElem? present)).pending next
    rw [locks_update]
    exact .move (locks_at present) (.ask idle (by simp [pending]))
  | @take i j g rest present next waits admitted =>
    right
    obtain ⟨guards, pending, _⟩ := (sound j (List.mem_of_getElem? present)).pending next
    rw [locks_update]
    exact .move (locks_at present) (.take (asked_eq_some.mpr ⟨waits, guards, pending⟩) admitted)
  | @act i j change rest present next =>
    left
    obtain ⟨inside, here⟩ := List.getElem?_eq_some_iff.mp (locks_at present)
    rw [locks_update, ← here, List.set_getElem_self]
  | @finish i j reply present next =>
    right
    have idle := (sound j (List.mem_of_getElem? present)).idle (by simp [next])
    simp only [Session.locks, Session.reply, List.map_set]
    exact .move (locks_at present) (.unwind idle)
  | @release i j r g held present answered holds =>
    right
    obtain ⟨none, _⟩ := (sound j (List.mem_of_getElem? present)).answered r answered
    rw [locks_update]
    exact .move (locks_at present) (.release none holds)
  | @leave i j r present answered free =>
    right
    obtain ⟨none, _⟩ := (sound j (List.mem_of_getElem? present)).answered r answered
    simp only [Session.locks, Session.leave, ← List.eraseIdx_map]
    exact .leave (locks_at present) ⟨none, free⟩

theorem step_locks (step : Step service starts policy s s') (sound : ∀ j ∈ s.jobs, j.Sound) :
    s'.locks = s.locks ∨
      Locks.Step policy (fun guards => ∃ call, service.guards call = guards) s.locks s'.locks := by
  cases step with
  | arrive =>
    right
    simp only [Session.locks, Session.arrive, List.map_append, List.map_cons, List.map_nil]
    exact .arrive ⟨_, rfl⟩
  | work works => exact works_locks works sound _

end Jobs

section Ends

/-- What is left of a program after one step of it. -/
inductive Program.Below : Program W L ρ → Program W L ρ → Prop where
  | take {g rest} : Below rest (.take g rest)
  | act {change rest} (w : W) : Below (rest w) (.act change rest)

theorem below_wf : WellFounded (Program.Below (W := W) (L := L) (ρ := ρ)) := by
  constructor
  intro program
  induction program with
  | take g rest ih =>
    constructor
    intro below less
    cases less
    exact ih
  | act change rest ih =>
    constructor
    intro below less
    cases less with
    | act w => exact ih w
  | finish reply =>
    constructor
    intro below less
    cases less

/-- Whether a job has still to reply, and whether it has still to ask. -/
def Job.chores (j : Job W L ρ ι) : Nat :=
  (if j.reply.isNone then 2 else 0) + if j.locks.waiting then 0 else 1

/-- Closer to its end: less of its program, fewer chores, or fewer guards to let go of. -/
def Job.Closer : Job W L ρ ι → Job W L ρ ι → Prop :=
  InvImage (Prod.Lex Program.Below (Prod.Lex (· < ·) (· < ·)))
    fun j => (j.rest, j.chores, j.locks.held.length)

theorem closer_wf : WellFounded (Job.Closer (W := W) (L := L) (ρ := ρ) (ι := ι)) :=
  InvImage.wf _ (below_wf.prod_lex (wellFounded_lt.prod_lex wellFounded_lt))

theorem cut_set {α : Type} {r : α → α → Prop} {xs : List α} {i : Nat} {x y : α}
    (present : xs[i]? = some x) (less : r y x) :
    Relation.CutExpand r (xs.set i y : Multiset α) (xs : Multiset α) := by
  obtain ⟨inside, here⟩ := List.getElem?_eq_some_iff.mp present
  have before : (xs : Multiset α) = x ::ₘ (xs.eraseIdx i : Multiset α) :=
    Multiset.coe_eq_coe.mpr (here ▸ (List.getElem_cons_eraseIdx_perm inside).symm)
  have now : (xs.set i y : Multiset α) = y ::ₘ (xs.eraseIdx i : Multiset α) :=
    Multiset.coe_eq_coe.mpr (List.set_perm_cons_eraseIdx inside y)
  rw [before, now, ← Multiset.singleton_add, ← Multiset.singleton_add]
  exact Relation.cutExpand_single_add less _

theorem cut_eraseIdx {α : Type} {r : α → α → Prop} {xs : List α} {i : Nat} {x : α}
    (present : xs[i]? = some x) :
    Relation.CutExpand r (xs.eraseIdx i : Multiset α) (xs : Multiset α) := by
  obtain ⟨inside, here⟩ := List.getElem?_eq_some_iff.mp present
  have before : (xs : Multiset α) = x ::ₘ (xs.eraseIdx i : Multiset α) :=
    Multiset.coe_eq_coe.mpr (here ▸ (List.getElem_cons_eraseIdx_perm inside).symm)
  refine ⟨0, x, by simp, ?_⟩
  rw [before, add_zero, add_comm, Multiset.singleton_add]

variable {policy : Policy L} {s s' : Session W L ρ ι}

/-- Every step brings one call closer to its end, or takes it away. -/
theorem works_closer (works : Works policy s s') :
    Relation.CutExpand Job.Closer (s'.jobs : Multiset (Job W L ρ ι)) s.jobs := by
  cases works with
  | @ask i j g rest present next idle =>
    refine cut_set present (.right _ (.left _ _ ?_))
    simp [Job.chores, Job.asking, idle]
  | @take i j g rest present next =>
    refine cut_set present (.left _ _ ?_)
    rw [next]
    exact .take
  | @act i j change rest present next =>
    refine cut_set present (.left _ _ ?_)
    rw [next]
    exact .act s.world
  | @finish i j reply present next unanswered =>
    refine cut_set present (.right _ (.left _ _ ?_))
    exact Nat.add_lt_add_right (by simp [Job.ended, unanswered]) _
  | @release i j r g held present answered holds =>
    refine cut_set present (.right _ (.right _ ?_))
    simp [Job.releasing, holds]
  | leave present => exact cut_eraseIdx present

/-- While no call arrives, the calls in progress come to an end. -/
theorem works_acc (sound : ∀ j ∈ s.jobs, j.Sound) :
    Acc (fun s' s : Session W L ρ ι => ∃ policy, Works policy s s') s := by
  have descends : ∀ jobs : Multiset (Job W L ρ ι), Acc (Relation.CutExpand Job.Closer) jobs →
      ∀ s : Session W L ρ ι, (s.jobs : Multiset (Job W L ρ ι)) = jobs → (∀ j ∈ s.jobs, j.Sound) →
        Acc (fun s' s : Session W L ρ ι => ∃ policy, Works policy s s') s := by
    intro jobs accessible
    induction accessible with
    | intro jobs _ ih =>
      rintro s rfl sound
      constructor
      rintro s' ⟨policy, works⟩
      exact ih _ (works_closer works) s' rfl (works_sound works sound)
  exact descends _ (closer_wf.cutExpand.apply _) s rfl sound

/-- Locks taken in the order of their ranks: some call in progress can make a step. -/
theorem exists_works (policy : Policy L) {rank : L → Nat} (sound : ∀ j ∈ s.jobs, j.Sound)
    (ordered : ∀ c ∈ s.locks, c.Ordered rank) (busy : s.jobs ≠ []) : ∃ s', Works policy s s' := by
  have waiting : s.locks ≠ [] := by simpa [Session.locks] using busy
  obtain ⟨c, member, free⟩ := exists_not_blocked policy ordered waiting
  obtain ⟨j, among, rfl⟩ := List.mem_map.mp member
  obtain ⟨i, present⟩ := List.getElem?_of_mem among
  cases waits : j.locks.waiting with
  | true =>
    obtain ⟨g, rest, next⟩ := (sound j among).waits waits
    obtain ⟨guards, pending, _⟩ := (sound j among).pending next
    by_cases admitted : policy.admits (heldBy s.locks) (askedBy s.locks) g
    · exact ⟨_, .take present next waits admitted⟩
    · have asked := asked_eq_some.mpr ⟨waits, guards, pending⟩
      exact absurd (blocked_iff.mpr ⟨g, asked, admitted⟩) free
  | false =>
    cases next : j.rest with
    | take g rest => exact ⟨_, .ask present next waits⟩
    | act change rest => exact ⟨_, .act present next⟩
    | finish reply =>
      cases answered : j.reply with
      | none => exact ⟨_, .finish present next answered⟩
      | some r =>
        cases holds : j.locks.held with
        | nil => exact ⟨_, .leave present answered holds⟩
        | cons g held => exact ⟨_, .release present answered holds⟩

end Ends

section Reached

variable {service : Service W L ρ ι} {starts : W → ι → Prop} {policy : Nat → Policy L}
  {w : W} {n : Nat} {s : Session W L ρ ι}

theorem leads_sound (leads : Leads service starts policy (.opened w) n s) :
    ∀ j ∈ s.jobs, j.Sound := by
  induction leads with
  | start => simp [Session.opened]
  | step _ now ih => exact step_sound now ih

theorem leads_exclusive (leads : Leads service starts policy (.opened w) n s) :
    Exclusive s.locks := by
  induction leads with
  | start => simp [Exclusive, Session.locks, Session.opened]
  | step before now ih =>
    rcases step_locks now (leads_sound before) with same | step
    · rw [same]
      exact ih
    · exact step_exclusive step ih

theorem leads_ordered {rank : L → Nat}
    (leads : Leads service starts policy (.opened w) n s)
    (sorted : ∀ call, (service.guards call).Pairwise fun g h => rank g.lock < rank h.lock) :
    ∀ c ∈ s.locks, c.Ordered rank := by
  induction leads with
  | start => simp [Session.locks, Session.opened]
  | step before now ih =>
    rcases step_locks now (leads_sound before) with same | step
    · rw [same]
      exact ih
    · refine step_ordered step ?_ ih
      rintro guards ⟨call, rfl⟩
      exact sorted call

end Reached
section Alone

variable {service : Service W L ρ ι} {starts : W → ι → Prop} {policy : Policy L}
  {s s' s'' : Session W L ρ ι}

/-- Some number of steps, under one policy. -/
def Comes (service : Service W L ρ ι) (starts : W → ι → Prop) (policy : Policy L)
    (s s' : Session W L ρ ι) : Prop := ∃ n, Leads service starts (fun _ => policy) s n s'

theorem Comes.refl (s : Session W L ρ ι) : Comes service starts policy s s := ⟨0, .start⟩

theorem Comes.trans (first : Comes service starts policy s s')
    (second : Comes service starts policy s' s'') : Comes service starts policy s s'' := by
  obtain ⟨n, before⟩ := first
  obtain ⟨m, after⟩ := second
  induction after with
  | start => exact ⟨n, before⟩
  | step _ now ih =>
    obtain ⟨k, leads⟩ := ih
    exact ⟨k + 1, leads.step now⟩

theorem Comes.works (works : Works policy s s') : Comes service starts policy s s' :=
  ⟨1, .step .start (.work works)⟩

def Distinct (guards : List (Guard L)) : Prop := guards.Pairwise fun g h => g.lock ≠ h.lock

variable {front back : List (Job W L ρ ι)} {w v : W} {n : Nat} {h : List (Answer ρ ι)}
  {j j' : Job W L ρ ι}

theorem getElem?_among (front back : List (Job W L ρ ι)) (j : Job W L ρ ι) :
    (front ++ j :: back)[front.length]? = some j := by
  simp

/-- A step of one call among others. -/
theorem among_update (works : Works policy ⟨w, n, front ++ j :: back, h⟩
      (Session.update ⟨w, n, front ++ j :: back, h⟩ front.length j' v)) :
    Comes service starts policy ⟨w, n, front ++ j :: back, h⟩
      ⟨v, n, front ++ j' :: back, h⟩ := by
  have step : Comes service starts policy _ _ := .works works
  simpa [Session.update] using step

/-- A call that has replied lets go of everything, and leaves. -/
theorem among_leaves {r : ρ} (answered : j.reply = some r) :
    Comes service starts policy ⟨w, n, front ++ j :: back, h⟩ ⟨w, n, front ++ back, h⟩ := by
  generalize held : j.locks.held = guards
  induction guards generalizing j with
  | nil =>
    have leaves : Comes service starts policy ⟨w, n, front ++ j :: back, h⟩ _ :=
      .works (.leave (getElem?_among front back j) answered held)
    simpa [Session.leave, List.eraseIdx_append_of_length_le] using leaves
  | cons g guards ih =>
    have releases : Comes service starts policy ⟨w, n, front ++ j :: back, h⟩
        ⟨w, n, front ++ j.releasing guards :: back, h⟩ :=
      among_update (.release (getElem?_among front back j) answered held)
    exact releases.trans (ih (j := j.releasing guards) answered rfl)

/-- A call goes through its program and leaves its outcome while others wait, or hold guards that
are no hindrance to it. -/
theorem among_runs (program : Program W L ρ) (next : j.rest = program) (sound : j.Sound)
    (unanswered : j.reply = none) (idle : j.locks.waiting = false)
    (distinct : Distinct (j.locks.held.reverse ++ j.locks.pending))
    (beside : ∀ other ∈ front ++ back, ∀ held ∈ other.locks.held, ∀ g ∈ j.locks.pending,
      g.Beside held) :
    Comes service starts Policy.plain ⟨w, n, front ++ j :: back, h⟩
      ⟨(program.run w).2, n, front ++ back, h ++ [⟨j.ticket, j.call, (program.run w).1⟩]⟩ := by
  induction program generalizing j w with
  | take g rest ih =>
    obtain ⟨guards, pending, _⟩ := sound.pending next
    have asks : Comes service starts Policy.plain ⟨w, n, front ++ j :: back, h⟩
        ⟨w, n, front ++ j.asking :: back, h⟩ :=
      among_update (.ask (getElem?_among front back j) next idle)
    have admitted : ∀ held ∈ heldBy ((front ++ j.asking :: back).map Job.locks),
        g.Beside held := by
      intro held member
      obtain ⟨_, among, holds⟩ := mem_heldBy.mp member
      obtain ⟨other, place, rfl⟩ := List.mem_map.mp among
      rcases List.mem_append.mp place with before | here
      · exact beside other (List.mem_append_left back before) held holds g (by simp [pending])
      rcases List.mem_cons.mp here with rfl | behind
      · intro same
        rw [Distinct, pending, List.pairwise_append] at distinct
        exact absurd same.symm
          (distinct.2.2 held (List.mem_reverse.mpr holds) g List.mem_cons_self)
      · exact beside other (List.mem_append_right front behind) held holds g (by simp [pending])
    have takes : Comes service starts Policy.plain ⟨w, n, front ++ j.asking :: back, h⟩
        ⟨w, n, front ++ j.asking.taking g rest :: back, h⟩ :=
      among_update (.take (getElem?_among front back j.asking) next rfl admitted)
    refine (asks.trans takes).trans (ih (j := j.asking.taking g rest) rfl ?_ unanswered rfl ?_ ?_)
    · exact sound_taking (sound_asking sound next) next
    · simpa [Job.asking, Job.taking, pending] using distinct
    · intro other among held holds g' later
      apply beside other among held holds g'
      rw [pending]
      exact List.mem_cons_of_mem g (by simpa [Job.asking, Job.taking, pending] using later)
  | act change rest ih =>
    have acts : Comes service starts Policy.plain ⟨w, n, front ++ j :: back, h⟩
        ⟨change w, n, front ++ { j with rest := rest w } :: back, h⟩ :=
      among_update (.act (getElem?_among front back j) next)
    exact acts.trans (ih w (j := { j with rest := rest w }) rfl (sound_acting sound next w)
      unanswered idle distinct beside)
  | finish reply =>
    have ends : Comes service starts Policy.plain ⟨w, n, front ++ j :: back, h⟩
        ⟨(reply w).2, n, front ++ j.ended (reply w).1 :: back,
          h ++ [⟨j.ticket, j.call, (reply w).1⟩]⟩ := by
      have finishes : Comes service starts Policy.plain ⟨w, n, front ++ j :: back, h⟩ _ :=
        .works (.finish (getElem?_among front back j) next unanswered)
      simpa [Session.reply] using finishes
    exact ends.trans (among_leaves rfl)

end Alone
end TwoPhase
