import ExRocket.Library.TwoPhase

/-! Calls that keep to their guards, at the same time: their replies are those of the same
calls one after another in the order in which they ended, and whatever no call in progress
holds for itself alone is as these have left it. -/
namespace TwoPhase

open Locks

variable {W L ρ ι : Type} {m : Memory W L} {service : Service W L ρ ι}
  {policy : Policy L} {w₀ : W} {s s' : Session W L ρ ι}

def Session.calls (s : Session W L ρ ι) : List ι := s.history.map Answer.call

/-- The world that the calls that have ended leave when they run one after another. -/
def Session.settled (service : Service W L ρ ι) (w₀ : W) (s : Session W L ρ ι) : W :=
  (service.serial w₀ s.calls).2

/-- From any world that is like the settled one where the call holds guards, the call comes to
where it is now, in a world that is like the real one where it holds guards and like the one
it began in where it holds none for itself alone. -/
def Follows (m : Memory W L) (service : Service W L ρ ι) (world settled : W)
    (j : Job W L ρ ι) : Prop :=
  ∀ v, m.Agree j.locks.held v settled → ∃ v', (service.code j.call).run v = j.rest.run v' ∧
    m.Agree j.locks.held v' world ∧ m.Level v' v ∧ ∀ l, Untouched j.locks.held l → m.same l v' v

/-- What holds of a call that has not replied. -/
structure OnTrack (m : Memory W L) (service : Service W L ρ ι) (world settled : W)
    (j : Job W L ρ ι) : Prop where
  framed : m.Framed j.locks.held j.rest
  known : ∀ g ∈ j.locks.held ++ j.locks.pending, m.known world g.lock
  follows : Follows m service world settled j

structure Serial (m : Memory W L) (service : Service W L ρ ι) (w₀ : W)
    (s : Session W L ρ ι) : Prop where
  replies : s.history.map Answer.reply = (service.serial w₀ s.calls).1
  level : m.Level s.world (s.settled service w₀)
  same : ∀ l, (∀ j ∈ s.jobs, j.reply = none → Untouched j.locks.held l) →
    m.same l s.world (s.settled service w₀)
  onTrack : ∀ j ∈ s.jobs, j.reply = none → OnTrack m service s.world (s.settled service w₀) j

/-- What others do leaves a call on its track, where it does not touch what the call holds. -/
theorem OnTrack.framed_by {world world' settled settled' : W} {j : Job W L ρ ι}
    (track : OnTrack m service world settled j) (worlds : m.Agree j.locks.held world world')
    (before : m.Agree j.locks.held settled' settled)
    (grows : ∀ l, m.known world l → m.known world' l) :
    OnTrack m service world' settled' j := by
  refine ⟨track.framed, fun g member => grows _ (track.known g member), ?_⟩
  intro v agree
  obtain ⟨v', same, there, level, untouched⟩ := track.follows v (agree.trans before)
  exact ⟨v', same, there.trans worlds, level, untouched⟩

theorem onTrack_arriving {world settled : W} {ticket : Nat} {call : ι}
    (framed : m.Framed [] (service.code call))
    (known : ∀ g ∈ service.guards call, m.known world g.lock) :
    OnTrack m service world settled (service.job ticket call) := by
  refine ⟨framed, known, ?_⟩
  intro v _
  exact ⟨v, rfl, by simp [Memory.Agree, Service.job, Caller.arriving], .refl v,
    fun l _ => m.refl l v⟩

/-- The lock of a guard that is admitted is as the calls that have ended have left it. -/
theorem onTrack_taking {world settled : W} {j : Job W L ρ ι} {g : Guard L}
    {rest : Program W L ρ} (track : OnTrack m service world settled j) (sound : j.Sound)
    (next : j.rest = .take g rest) (same : m.same g.lock world settled)
    (untouched : Untouched j.locks.held g.lock) :
    OnTrack m service world settled (j.taking g rest) := by
  have framed := track.framed
  obtain ⟨guards, pending, _⟩ := sound.pending next
  rw [next] at framed
  refine ⟨?_, ?_, ?_⟩
  · cases framed with
    | take framed => exact framed
  · intro h member
    apply track.known
    simp only [Job.taking, pending, List.tail_cons, List.cons_append, List.mem_cons,
      List.mem_append] at member ⊢
    tauto
  · intro v agree
    obtain ⟨here, agree⟩ := List.forall_mem_cons.mp agree
    obtain ⟨v', runs, there, level, kept⟩ := track.follows v agree
    rw [next, Program.run] at runs
    refine ⟨v', runs, ?_, level, ?_⟩
    · refine List.forall_mem_cons.mpr ⟨?_, there⟩
      exact Memory.trans (kept g.lock untouched) (Memory.trans here (Memory.symm same))
    · intro l free
      exact kept l fun h holds => free h (List.mem_cons_of_mem g holds)

/-- The step of a call takes it further on its own track. -/
theorem onTrack_acting {world settled : W} {j : Job W L ρ ι} {change : W → W}
    {rest : W → Program W L ρ} (track : OnTrack m service world settled j)
    (next : j.rest = .act change rest) :
    OnTrack m service (change world) settled { j with rest := rest world } := by
  have framed := track.framed
  rw [next] at framed
  cases framed with
  | act depends keeps level chooses framed =>
    refine ⟨framed world, fun g member => (level world g.lock).mpr (track.known g member), ?_⟩
    intro v agree
    obtain ⟨v', runs, there, levels, kept⟩ := track.follows v agree
    rw [next, Program.run, chooses v' world there] at runs
    refine ⟨change v', runs, ?_, (level v').trans levels, ?_⟩
    · exact fun g holds => depends v' world g.lock there (there g holds)
    · exact fun l free => Memory.trans (keeps v' l free) (kept l free)

section Jobs

variable {α : Type} {P : α → Prop} {xs : List α} {i : Nat} {x y : α}

theorem forall_set (others : ∀ k z, k ≠ i → xs[k]? = some z → P z) (own : P y) :
    ∀ z ∈ xs.set i y, P z := by
  intro z member
  obtain ⟨k, there⟩ := List.getElem?_of_mem member
  rcases set_at there with ⟨_, rfl⟩ | ⟨different, before⟩
  · exact own
  · exact others k z different before

theorem forall_of_set (present : xs[i]? = some x) (all : ∀ z ∈ xs.set i y, P z)
    (own : P y → P x) : ∀ z ∈ xs, P z := by
  intro z member
  obtain ⟨k, there⟩ := List.getElem?_of_mem member
  by_cases here : i = k
  · subst here
    cases Option.some.inj (present.symm.trans there)
    exact own (all y (List.mem_set (List.getElem?_eq_some_iff.mp present).1 y))
  · apply all z
    apply List.mem_of_getElem? (i := k)
    rw [List.getElem?_set_ne here, there]

theorem forall_of_eraseIdx (present : xs[i]? = some x) (all : ∀ z ∈ xs.eraseIdx i, P z)
    (own : P x) : ∀ z ∈ xs, P z := by
  intro z member
  obtain ⟨k, there⟩ := List.getElem?_of_mem member
  by_cases here : k = i
  · subst here
    cases Option.some.inj (present.symm.trans there)
    exact own
  · exact all z (List.mem_eraseIdx_iff_getElem?.mpr ⟨k, here, there⟩)

end Jobs

theorem apart_untouched {c d : Caller L} (apart : c.Apart d) {h : Guard L} (holds : h ∈ d.held) :
    Untouched c.held h.lock :=
  fun g takes same => (apart g takes h holds same).1

/-- The other calls stay on their tracks, whatever a call does to what it holds for itself. -/
theorem others_onTrack (serial : Serial m service w₀ s) (exclusive : Exclusive s.locks) {i : Nat}
    {j : Job W L ρ ι} (present : s.jobs[i]? = some j) {world settled : W}
    (worlds : ∀ l, m.known s.world l → Untouched j.locks.held l → m.same l s.world world)
    (before : ∀ l, m.known s.world l → Untouched j.locks.held l →
      m.same l settled (s.settled service w₀))
    (grows : ∀ l, m.known s.world l → m.known world l) :
    ∀ k d, k ≠ i → s.jobs[k]? = some d → d.reply = none → OnTrack m service world settled d := by
  intro k d different there unanswered
  have apart : j.locks.Apart d.locks := exclusive different.symm (locks_at present) (locks_at there)
  have track := serial.onTrack d (List.mem_of_getElem? there) unanswered
  have held : ∀ g ∈ d.locks.held, m.known s.world g.lock :=
    fun g holds => track.known g (List.mem_append_left _ holds)
  apply track.framed_by
  · exact fun g holds => worlds _ (held g holds) (apart_untouched apart holds)
  · exact fun g holds => before _ (held g holds) (apart_untouched apart holds)
  · exact grows

theorem serial_update (serial : Serial m service w₀ s) (exclusive : Exclusive s.locks) {i : Nat}
    {j j' : Job W L ρ ι} (present : s.jobs[i]? = some j) {world : W}
    (level : m.Level world s.world)
    (keeps : ∀ l, Untouched j.locks.held l → m.same l world s.world)
    (holds : ∀ l, (j'.reply = none → Untouched j'.locks.held l) →
      j.reply = none → Untouched j.locks.held l)
    (answered : ∀ l, j.reply ≠ none → m.same l world s.world)
    (own : j'.reply = none → OnTrack m service world (s.settled service w₀) j') :
    Serial m service w₀ (s.update i j' world) := by
  refine ⟨serial.replies, level.trans serial.level, ?_, ?_⟩
  · intro l free
    have before := forall_of_set present free (holds l)
    have kept : m.same l world s.world := by
      by_cases unanswered : j.reply = none
      · exact keeps l (before j (List.mem_of_getElem? present) unanswered)
      · exact answered l unanswered
    exact Memory.trans kept (serial.same l before)
  · refine forall_set ?_ own
    apply others_onTrack serial exclusive present
    · exact fun l _ untouched => Memory.symm (keeps l untouched)
    · exact fun l _ _ => m.refl l _
    · exact fun l known => (level l).mpr known

/-- A call that ends does to the real world what it does to the one that the calls before it
have left. -/
theorem serial_reply (serial : Serial m service w₀ s) (exclusive : Exclusive s.locks) {i : Nat}
    {j : Job W L ρ ι} (present : s.jobs[i]? = some j) {reply : W → ρ × W}
    (next : j.rest = .finish reply) (unanswered : j.reply = none) :
    Serial m service w₀ (s.reply i j (reply s.world).1 (reply s.world).2) := by
  have track := serial.onTrack j (List.mem_of_getElem? present) unanswered
  have framed := track.framed
  obtain ⟨v, runs, there, levels, kept⟩ :=
    track.follows (s.settled service w₀) fun g _ => m.refl g.lock _
  rw [next] at framed runs
  rw [Program.run] at runs
  cases framed with
  | finish depends keeps grows =>
    have level : m.Level v s.world := levels.trans serial.level.symm
    obtain ⟨replies, grown, same⟩ := depends v s.world there level
    have calls : (s.reply i j (reply s.world).1 (reply s.world).2).calls = s.calls ++ [j.call] := by
      simp [Session.calls, Session.reply]
    have settled : (s.reply i j (reply s.world).1 (reply s.world).2).settled service w₀ =
        (reply v).2 := by
      rw [Session.settled, calls, serial_append, ← runs]
      rfl
    have before : ∀ l, Untouched j.locks.held l → m.same l v (s.settled service w₀) := kept
    constructor
    · rw [calls, serial_append]
      simp only [Session.reply, List.map_append, List.map_cons, List.map_nil, serial.replies]
      rw [← replies, ← runs]
      rfl
    · rw [settled]
      exact grown.symm
    · intro l free
      rw [settled]
      apply Memory.symm
      apply same
      by_cases touched : Untouched j.locks.held l
      · have all := forall_of_set present free fun _ _ => touched
        exact Memory.trans (before l touched) (Memory.symm (serial.same l all))
      · simp only [Untouched, not_forall] at touched
        obtain ⟨g, holds, rfl, _⟩ := touched
        exact there g holds
    · rw [settled]
      refine forall_set ?_ (by simp [Job.ended])
      apply others_onTrack serial exclusive present
      · exact fun l known touched => Memory.symm (keeps _ l known touched)
      · intro l known touched
        exact Memory.trans (keeps v l ((level l).mpr known) touched) (before l touched)
      · exact fun l known => grows _ l known

theorem works_serial (works : Works policy s s') (sound : ∀ j ∈ s.jobs, j.Sound)
    (exclusive : Exclusive s.locks) (serial : Serial m service w₀ s) :
    Serial m service w₀ s' := by
  cases works with
  | @ask i j g rest present next =>
    have member := List.mem_of_getElem? present
    refine serial_update serial exclusive present (.refl _) (fun l _ => m.refl l _)
      (fun _ held => held) (fun l _ => m.refl l _) fun unanswered => ?_
    obtain ⟨framed, known, follows⟩ := serial.onTrack j member unanswered
    exact ⟨framed, known, follows⟩
  | @take i j g rest present next waits admitted =>
    have member := List.mem_of_getElem? present
    refine serial_update serial exclusive present (.refl _) (fun l _ => m.refl l _) ?_
      (fun l _ => m.refl l _) fun unanswered => ?_
    · exact fun l free unanswered h holds => free unanswered h (List.mem_cons_of_mem g holds)
    · have shared : ∀ k ∈ s.jobs, Untouched k.locks.held g.lock := by
        intro k among h holds same
        have held := mem_heldBy.mpr ⟨_, List.mem_map_of_mem (f := Job.locks) among, holds⟩
        exact (policy.excludes admitted h held same.symm).2
      exact onTrack_taking (serial.onTrack j member unanswered) (sound j member) next
        (serial.same g.lock fun k among _ => shared k among) (shared j member)
  | @act i j change rest present next =>
    have member := List.mem_of_getElem? present
    have unanswered : j.reply = none := by
      by_contra answered
      obtain ⟨r, reply⟩ := Option.ne_none_iff_exists'.mp answered
      obtain ⟨_, finish, same⟩ := (sound j member).answered r reply
      rw [next] at same
      cases same
    have track := serial.onTrack j member unanswered
    have framed := track.framed
    rw [next] at framed
    cases framed with
    | act depends keeps level =>
      exact serial_update serial exclusive present (level _) (keeps _) (fun _ held => held)
        (fun _ answered => absurd unanswered answered) fun _ => onTrack_acting track next
  | finish present next unanswered => exact serial_reply serial exclusive present next unanswered
  | @release i j r g held present answered =>
    refine serial_update serial exclusive present (.refl _) (fun l _ => m.refl l _)
      (fun _ _ unanswered => ?_) (fun l _ => m.refl l _) fun unanswered => ?_
    · rw [answered] at unanswered
      cases unanswered
    · rw [Job.releasing, answered] at unanswered
      cases unanswered
  | @leave i j r present answered =>
    refine ⟨serial.replies, serial.level, ?_, ?_⟩
    · intro l free
      exact serial.same l (forall_of_eraseIdx present free (by simp [answered]))
    · exact fun k member => serial.onTrack k (List.mem_of_mem_eraseIdx member)

/-- The calls that arrive know their locks and keep to their guards. -/
def Careful (m : Memory W L) (service : Service W L ρ ι) (starts : W → ι → Prop) : Prop :=
  ∀ w call, starts w call → m.Framed [] (service.code call) ∧
    ∀ g ∈ service.guards call, m.known w g.lock

theorem step_serial {starts : W → ι → Prop} (careful : Careful m service starts)
    (step : Step service starts policy s s') (sound : ∀ j ∈ s.jobs, j.Sound)
    (exclusive : Exclusive s.locks) (serial : Serial m service w₀ s) :
    Serial m service w₀ s' := by
  cases step with
  | @arrive call start =>
    obtain ⟨framed, known⟩ := careful s.world call start
    refine ⟨serial.replies, serial.level, ?_, ?_⟩
    · intro l free
      exact serial.same l fun j member => free j (List.mem_append_left _ member)
    · intro j member unanswered
      rcases List.mem_append.mp member with before | new
      · exact serial.onTrack j before unanswered
      · rw [List.mem_singleton.mp new]
        exact onTrack_arriving framed known
  | work works => exact works_serial works sound exclusive serial

theorem leads_serial {starts : W → ι → Prop} (careful : Careful m service starts)
    {policy : Nat → Policy L} {n : Nat} (leads : Leads service starts policy (.opened w₀) n s) :
    Serial m service w₀ s := by
  induction leads with
  | start =>
    refine ⟨rfl, .refl _, fun l _ => m.refl l _, ?_⟩
    simp [Session.opened]
  | step before now ih =>
    exact step_serial careful now (leads_sound before) (leads_exclusive before) ih

section History

variable {starts : W → ι → Prop}

/-- The ticket of a call that has not replied. -/
def Job.awaiting (j : Job W L ρ ι) : Option Nat := if j.reply.isNone then some j.ticket else none

/-- Each call that has arrived has replied once, or has still to reply. -/
def Session.Counted (s : Session W L ρ ι) : Prop :=
  (s.history.map Answer.ticket ++ s.jobs.filterMap Job.awaiting).Perm (List.range s.arrived)

theorem filterMap_set_perm {α β : Type} (f : α → Option β) {xs : List α} {i : Nat} {x : α}
    (present : xs[i]? = some x) (y : α) :
    ((f x).toList ++ (xs.set i y).filterMap f).Perm ((f y).toList ++ xs.filterMap f) := by
  obtain ⟨inside, here⟩ := List.getElem?_eq_some_iff.mp present
  have one : ∀ z : α, ∀ zs : List α,
      (z :: zs).filterMap f = (f z).toList ++ zs.filterMap f := by
    intro z zs
    cases value : f z <;> simp [value]
  have now := (List.set_perm_cons_eraseIdx inside y).filterMap f
  have before := (List.getElem_cons_eraseIdx_perm inside).filterMap f
  rw [one] at now before
  rw [here] at before
  have swap := List.perm_append_comm_assoc (f x).toList (f y).toList ((xs.eraseIdx i).filterMap f)
  exact (now.append_left _).trans (swap.trans (before.append_left _))

theorem counted_update {i : Nat} {j j' : Job W L ρ ι} (present : s.jobs[i]? = some j)
    (same : j'.awaiting = j.awaiting) (w : W) (counted : s.Counted) :
    (s.update i j' w).Counted := by
  have perm := filterMap_set_perm Job.awaiting present j'
  rw [same] at perm
  exact (((List.perm_append_left_iff _).mp perm).append_left _).trans counted

theorem counted_reply {i : Nat} {j : Job W L ρ ι} (present : s.jobs[i]? = some j)
    (unanswered : j.reply = none) (r : ρ) (w : W) (counted : s.Counted) :
    (s.reply i j r w).Counted := by
  have perm := filterMap_set_perm Job.awaiting present (j.ended r)
  have before : j.awaiting = some j.ticket := by simp [Job.awaiting, unanswered]
  have now : (j.ended r).awaiting = none := by simp [Job.awaiting, Job.ended]
  rw [before, now] at perm
  simp only [Session.Counted, Session.reply, List.map_append, List.map_cons, List.map_nil,
    List.append_assoc]
  exact (perm.append_left _).trans counted

theorem works_counted (works : Works policy s s') (counted : s.Counted) : s'.Counted := by
  cases works with
  | ask present => exact counted_update present (by rfl) _ counted
  | take present => exact counted_update present (by rfl) _ counted
  | act present => exact counted_update present (by rfl) _ counted
  | finish present next unanswered => exact counted_reply present unanswered _ _ counted
  | release present => exact counted_update present (by rfl) _ counted
  | @leave i j r present answered =>
    obtain ⟨inside, here⟩ := List.getElem?_eq_some_iff.mp present
    have gone : j.awaiting = none := by simp [Job.awaiting, answered]
    have perm := (List.getElem_cons_eraseIdx_perm inside).filterMap Job.awaiting
    rw [here, List.filterMap_cons_none gone] at perm
    exact (perm.append_left _).trans counted

theorem step_counted (step : Step service starts policy s s') (counted : s.Counted) :
    s'.Counted := by
  cases step with
  | arrive =>
    have one : ∀ call, (service.job s.arrived call).awaiting = some s.arrived := by
      simp [Job.awaiting, Service.job]
    simp only [Session.Counted, Session.arrive, List.filterMap_append, List.filterMap_cons,
      List.filterMap_nil, one, List.range_succ, ← List.append_assoc]
    exact counted.append_right _
  | work works => exact works_counted works counted

/-- What a call in progress has replied stands in the history. -/
def Session.Recorded (s : Session W L ρ ι) : Prop :=
  ∀ j ∈ s.jobs, ∀ r, j.reply = some r → ⟨j.ticket, j.call, r⟩ ∈ s.history

theorem recorded_update {i : Nat} {j j' : Job W L ρ ι} (present : s.jobs[i]? = some j)
    (same : (j'.ticket, j'.call, j'.reply) = (j.ticket, j.call, j.reply)) (w : W)
    (recorded : s.Recorded) : (s.update i j' w).Recorded := by
  simp only [Prod.mk.injEq] at same
  obtain ⟨ticket, call, reply⟩ := same
  apply forall_set
  · exact fun k d _ there => recorded d (List.mem_of_getElem? there)
  · rw [ticket, call, reply]
    exact recorded j (List.mem_of_getElem? present)

theorem works_recorded (works : Works policy s s') (recorded : s.Recorded) : s'.Recorded := by
  cases works with
  | ask present => exact recorded_update present (by rfl) _ recorded
  | take present => exact recorded_update present (by rfl) _ recorded
  | act present => exact recorded_update present (by rfl) _ recorded
  | finish present =>
    apply forall_set
    · intro k d _ there r answered
      exact List.mem_append_left _ (recorded d (List.mem_of_getElem? there) r answered)
    · rintro r ⟨⟩
      simp [Session.reply, Job.ended]
  | release present => exact recorded_update present (by rfl) _ recorded
  | leave => exact fun j member => recorded j (List.mem_of_mem_eraseIdx member)

theorem step_recorded (step : Step service starts policy s s') (recorded : s.Recorded) :
    s'.Recorded := by
  cases step with
  | arrive =>
    intro j member r answered
    rcases List.mem_append.mp member with before | new
    · exact recorded j before r answered
    · rw [List.mem_singleton.mp new] at answered
      cases answered
  | work works => exact works_recorded works recorded

theorem works_history (works : Works policy s s') : s.history <+: s'.history := by
  cases works with
  | finish => exact List.prefix_append _ _
  | _ => exact List.prefix_rfl

theorem step_history (step : Step service starts policy s s') : s.history <+: s'.history := by
  cases step with
  | arrive => exact List.prefix_rfl
  | work works => exact works_history works

variable {policy : Nat → Policy L} {n : Nat}

theorem leads_counted (leads : Leads service starts policy s n s') (counted : s.Counted) :
    s'.Counted := by
  induction leads with
  | start => exact counted
  | step _ now ih => exact step_counted now ih

theorem opened_counted (w : W) : (Session.opened w : Session W L ρ ι).Counted := .refl _

theorem leads_recorded (leads : Leads service starts policy s n s') (recorded : s.Recorded) :
    s'.Recorded := by
  induction leads with
  | start => exact recorded
  | step _ now ih => exact step_recorded now ih

theorem opened_recorded (w : W) : (Session.opened w : Session W L ρ ι).Recorded := by
  simp [Session.Recorded, Session.opened]

/-- Whatever comes later, it comes later in the history. -/
theorem leads_history (leads : Leads service starts policy s n s') :
    s.history <+: s'.history := by
  induction leads with
  | start => exact List.prefix_rfl
  | step _ now ih => exact ih.trans (step_history now)

theorem counted_nodup (counted : s.Counted) : (s.history.map Answer.ticket).Nodup := by
  have once := counted.symm.nodup List.nodup_range
  exact (List.nodup_append.mp once).1

theorem counted_arrived (counted : s.Counted) {a : Answer ρ ι} (member : a ∈ s.history) :
    a.ticket < s.arrived := by
  apply List.mem_range.mp
  apply counted.subset
  exact List.mem_append_left _ (List.mem_map_of_mem member)

/-- A call that has arrived and is gone has replied. -/
theorem counted_gone (counted : s.Counted) {ticket : Nat} (arrived : ticket < s.arrived)
    (gone : ∀ j ∈ s.jobs, j.ticket ≠ ticket) : ∃ a ∈ s.history, a.ticket = ticket := by
  rcases List.mem_append.mp (counted.symm.subset (List.mem_range.mpr arrived)) with told | waits
  · exact List.mem_map.mp told
  · obtain ⟨j, member, awaits⟩ := List.mem_filterMap.mp waits
    rw [Job.awaiting] at awaits
    split at awaits
    · cases awaits
      exact absurd rfl (gone j member)
    · cases awaits

/-- A call that was gone before another one arrived stands before it in the history. -/
theorem history_in_order {policy' : Nat → Policy L} {n' : Nat}
    (before : Leads service starts policy (.opened w₀) n s)
    (after : Leads service starts policy' s n' s') {a b : Answer ρ ι} (first : a ∈ s'.history)
    (second : b ∈ s'.history) (started : a.ticket < s.arrived)
    (gone : ∀ j ∈ s.jobs, j.ticket ≠ a.ticket) (later : s.arrived ≤ b.ticket) :
    ∃ front back, s'.history = front ++ back ∧ a ∈ front ∧ b ∈ back := by
  have counted := leads_counted before (opened_counted w₀)
  obtain ⟨back, history⟩ := leads_history after
  refine ⟨s.history, back, history.symm, ?_, ?_⟩
  · obtain ⟨a', told, same⟩ := counted_gone counted started gone
    have among : a' ∈ s'.history := history ▸ List.mem_append_left _ told
    have once := counted_nodup (leads_counted after counted)
    rw [← List.inj_on_of_nodup_map once among first same]
    exact told
  · rw [← history] at second
    rcases List.mem_append.mp second with old | new
    · exact absurd (counted_arrived counted old) (Nat.not_lt.mpr later)
    · exact new

end History
end TwoPhase
