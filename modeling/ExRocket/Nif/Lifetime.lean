import ExRocket.Library.Custody
import ExRocket.Nif.Custody
import ExRocket.Nif.Memory

/-! Lifetimes of databases, snapshots and iterators. A resource is destroyed at some time
after the last term that refers to it is gone; destroying a handle closes its database.
Resources do not refer to one another, and the compiler has been told that a snapshot or an
iterator lives for ever. -/
namespace ExRocket

/-- A resource of one of the databases that have been opened. -/
structure Ref where
  node : Nat
  resource : Resource
  deriving DecidableEq

/-- What a call is given on a snapshot of one database in a tuple with the handle of another. -/
def Ref.across (node through : Nat) : Resource → Ref
  | .db => ⟨through, .db⟩
  | r => ⟨node, r⟩

structure System (R : RocksDb) where
  nodes : List (World R)
  /-- The terms that exist, each by what it refers to. -/
  held : List (List Ref)
  destroyed : List Ref
  /-- What was made on a snapshot with the handle of another database, by this database. -/
  crossed : List (Ref × Nat)

inductive Act (R : RocksDb) where
  | opens (db : R.Store)
  | native (node : Nat) (call : Call)
  | across (node through : Nat) (call : Call)
  | hold (refs : List Ref)
  | drop (k : Nat)
  | collect (ref : Ref)

variable {R : RocksDb}

def World.refs (w : World R) (node : Nat) : List Ref := w.resources.map (Ref.mk node)

namespace System

def empty : System R := ⟨[], [], [], []⟩

def refs (s : System R) : List Ref := s.nodes.zipIdx.flatMap fun (w, node) => w.refs node

def reachable (s : System R) : List Ref := s.held.flatten

/-- One call, one term that is built or dropped, or one resource that is destroyed: a call
and a term need what they refer to, and only what no term refers to is destroyed. A snapshot in a
tuple with the handle of another database is read with that handle, which stays as it is. -/
def step (rt : Rustler) (s : System R) : Act R → Option (System R)
  | .opens db => some { s with
      nodes := s.nodes ++ [World.opened db]
      held := s.held ++ [[⟨s.nodes.length, .db⟩]] }
  | .native node call => do
    let w ← s.nodes[node]?
    if ∀ r ∈ call.given, ⟨node, r⟩ ∈ s.reachable then
      let (reply, w) := w.step rt call
      some { s with
        nodes := s.nodes.set node w
        held := s.held ++ [reply.resources.map (Ref.mk node)] }
    else none
  | .across node through call => do
    let w ← s.nodes[node]?
    let v ← s.nodes[through]?
    if call.onHandle = false ∧ .db ∈ call.given ∧ (∃ r ∈ call.given, r ≠ .db) ∧
        ∀ r ∈ call.given, Ref.across node through r ∈ s.reachable then
      let (reply, w') := ({ w with handle := v.handle } : World R).step rt call
      let told := reply.resources.map (Ref.across node through)
      some { s with
        nodes := s.nodes.set node { w' with handle := w.handle }
        held := s.held ++ [told]
        crossed := s.crossed ++
          (told.filter fun ref => ref.resource ≠ .db).map fun ref => (ref, through) }
    else none
  | .hold refs =>
    if ∀ ref ∈ refs, ref ∈ s.reachable then some { s with held := s.held ++ [refs] } else none
  | .drop k => some { s with held := s.held.eraseIdx k }
  | .collect ref =>
    if ref ∈ s.refs ∧ ref ∉ s.destroyed ∧ ref ∉ s.reachable then
      some { s with destroyed := ref :: s.destroyed }
    else none

/-- The snapshots and iterators that have not been destroyed. -/
def dependents (s : System R) : List Ref :=
  s.refs.filter fun ref => decide (ref.resource ≠ .db ∧ ref ∉ s.destroyed)

/-- The databases that a resource belongs to: its own, and one by whose handle it was made. -/
def owners (s : System R) (ref : Ref) : List Nat :=
  ref.node :: (s.crossed.filter fun entry => entry.1 = ref).map Prod.snd

def Closed (s : System R) (node : Nat) : Prop := ⟨node, .db⟩ ∈ s.destroyed

/-- No live snapshot or iterator belongs to a database that is closed. -/
def Safe (s : System R) : Prop := ∀ ref ∈ s.dependents, ∀ node ∈ s.owners ref, ¬ s.Closed node

end System

/-- A term is dropped only while every database that has a snapshot or an iterator left is
still referred to by another term. -/
def Act.Careful (s : System R) : Act R → Prop
  | .drop k =>
    ∀ ref ∈ s.dependents, ∀ node ∈ s.owners ref, ⟨node, .db⟩ ∈ (s.held.eraseIdx k).flatten
  | _ => True

instance decidableCareful (s : System R) (act : Act R) : Decidable (act.Careful s) :=
  match act with
  | .drop k => inferInstanceAs (Decidable (∀ ref ∈ s.dependents, ∀ node ∈ s.owners ref,
      ⟨node, .db⟩ ∈ (s.held.eraseIdx k).flatten))
  | .opens _ | .native .. | .across .. | .hold _ | .collect _ => inferInstanceAs (Decidable True)

/-- The databases that a step works on: a call on what belongs to one of them, or the release of
a snapshot or an iterator. -/
def Act.Uses (s : System R) : Act R → Nat → Prop
  | .native node call, node' => ∃ r ∈ call.given, node' ∈ s.owners ⟨node, r⟩
  | .across node through call, node' =>
    ∃ r ∈ call.given, node' ∈ s.owners (Ref.across node through r)
  | .collect ref, node' => node' ∈ s.owners ref ∧ ref.resource ≠ .db
  | _, _ => False

namespace System

variable {rt : Rustler} {s s' : System R}

inductive Reached (rt : Rustler) (allowed : System R → Act R → Prop) : System R → Prop where
  | start : Reached rt allowed .empty
  | step {s s' : System R} (act : Act R) : Reached rt allowed s → allowed s act →
      s.step rt act = some s' → Reached rt allowed s'

theorem mem_refs {ref : Ref} :
    ref ∈ s.refs ↔ ∃ w, s.nodes[ref.node]? = some w ∧ ref.resource ∈ w.resources := by
  obtain ⟨node, r⟩ := ref
  simp only [refs, List.mem_flatMap, List.mem_zipIdx_iff_getElem?, Prod.exists, World.refs,
    List.mem_map, Ref.mk.injEq]
  constructor
  · rintro ⟨w, node', at_, r', member, rfl, rfl⟩
    exact ⟨w, at_, member⟩
  · rintro ⟨w, at_, member⟩
    exact ⟨w, node, at_, r, member, rfl, rfl⟩

theorem mem_owners {ref : Ref} {node : Nat} :
    node ∈ s.owners ref ↔ node = ref.node ∨ (ref, node) ∈ s.crossed := by
  simp [owners]

/-- A snapshot or an iterator must not outlive the databases that it belongs to. -/
def DependsOn (s : System R) (d b : Ref) : Prop :=
  d.resource ≠ .db ∧ ∃ node ∈ s.owners d, b = ⟨node, .db⟩

def custody (s : System R) : Custody.State Ref where
  made := {ref | ref ∈ s.refs}
  destroyed := {ref | ref ∈ s.destroyed}
  held := s.held

theorem custody_held {ref : Ref} : s.custody.Held ref ↔ ref ∈ s.reachable :=
  List.mem_flatten.symm

structure Guarded (s : System R) : Prop where
  custody : Custody.Guarded s.DependsOn s.custody
  made : ∀ entry ∈ s.crossed, entry.1 ∈ s.refs ∧ entry.1.resource ≠ .db

theorem guarded_live (inv : s.Guarded) {ref : Ref} (reachable : ref ∈ s.reachable) :
    ref ∈ s.refs ∧ ref ∉ s.destroyed :=
  inv.custody.held_live ref (custody_held.mpr reachable)

/-- A term is built of what is held and of what a step makes. What is made belongs to the database
of something held, and what crosses does so by a handle that is held. -/
theorem make_guarded (inv : s.Guarded) (told : List Ref) (grows : ∀ ref ∈ s.refs, ref ∈ s'.refs)
    (held : s'.held = s.held ++ [told]) (destroyed : s'.destroyed = s.destroyed)
    (crossed : ∀ entry ∈ s'.crossed, entry ∈ s.crossed ∨
      (entry.1 ∈ told ∧ entry.1.resource ≠ .db) ∧ ⟨entry.2, .db⟩ ∈ s.reachable)
    (known : ∀ ref ∈ told, ref ∈ s.reachable ∨ ref ∈ s'.refs ∧ ref ∉ s.refs)
    (based : ∀ ref ∈ s'.refs, ref ∉ s.refs → ref.resource ≠ .db →
      ⟨ref.node, .db⟩ ∈ s.reachable ∨ ∃ r ≠ .db, ⟨ref.node, r⟩ ∈ s.reachable) :
    s'.Guarded := by
  have made : {ref | ref ∈ s'.refs} =
      {ref | ref ∈ s.refs} ∪ {ref | ref ∈ s'.refs ∧ ref ∉ s.refs} := by
    ext ref
    constructor
    · intro member
      by_cases before : ref ∈ s.refs
      · exact .inl before
      · exact .inr ⟨member, before⟩
    · rintro (before | now)
      · exact grows ref before
      · exact now.1
  have same : s'.custody = s.custody.make {ref | ref ∈ s'.refs ∧ ref ∉ s.refs} told := by
    rw [custody, Custody.State.make, made, held, destroyed]
    rfl
  have before : Custody.Guarded s'.DependsOn s.custody := by
    refine ⟨inv.custody.held_live, inv.custody.destroyed_made, ?_⟩
    rintro d b live ⟨handle, node, owner, rfl⟩
    have keeps : node ∈ s.owners d → s.custody.Held ⟨node, .db⟩ := fun owner =>
      inv.custody.guarded d _ live ⟨handle, node, owner, rfl⟩
    rcases mem_owners.mp owner with own | new
    · exact keeps (mem_owners.mpr (.inl own))
    · rcases crossed _ new with old | ⟨_, reachable⟩
      · exact keeps (mem_owners.mpr (.inr old))
      · exact custody_held.mpr reachable
  constructor
  · simp only [same]
    apply Custody.make_guarded before
    · exact fun ref fresh => fresh.2
    · exact fun ref member => (known ref member).imp_left custody_held.mpr
    · rintro d ⟨now, new⟩ b ⟨handle, node, owner, rfl⟩
      rcases mem_owners.mp owner with rfl | entry
      · rcases based d now new handle with reachable | ⟨r, other, reachable⟩
        · exact .inl (Custody.State.make_held.mpr (.inl (custody_held.mpr reachable)))
        · exact .inr ⟨⟨d.node, r⟩, custody_held.mpr reachable, other, d.node,
            mem_owners.mpr (.inl rfl), rfl⟩
      · rcases crossed _ entry with old | ⟨_, reachable⟩
        · exact absurd (inv.made _ old).1 new
        · exact .inl (Custody.State.make_held.mpr (.inl (custody_held.mpr reachable)))
  · intro entry member
    rcases crossed entry member with old | ⟨⟨member, other⟩, _⟩
    · exact (inv.made entry old).imp_left (grows _)
    · refine ⟨?_, other⟩
      rcases known _ member with reachable | now
      · exact grows _ (guarded_live inv reachable).1
      · exact now.1

theorem opens_refs {db : R.Store} {ref : Ref} (nodes : s'.nodes = s.nodes ++ [World.opened db]) :
    ref ∈ s'.refs ↔ ref ∈ s.refs ∨ ref = ⟨s.nodes.length, .db⟩ := by
  have only : ∀ r, r ∈ (World.opened db : World R).resources ↔ r = .db :=
    fun r => List.mem_singleton
  obtain ⟨node, r⟩ := ref
  rw [mem_refs, mem_refs, nodes, Ref.mk.injEq]
  rcases Nat.lt_trichotomy node s.nodes.length with before | here | beyond
  · rw [List.getElem?_append_left before]
    exact ⟨.inl, fun found => found.resolve_right fun same => before.ne same.1⟩
  · subst here
    simp [only]
  · have none_ : (s.nodes ++ [World.opened db])[node]? = none := by
      apply List.getElem?_eq_none
      rw [List.length_append, List.length_singleton]
      exact beyond
    have none_' : s.nodes[node]? = none := List.getElem?_eq_none beyond.le
    simp only [none_, none_']
    constructor
    · rintro ⟨w, at_, _⟩
      cases at_
    · rintro (⟨w, at_, _⟩ | ⟨same, _⟩)
      · cases at_
      · exact absurd same beyond.ne'

theorem opens_guarded (inv : s.Guarded) (db : R.Store)
    (step : s.step rt (.opens db) = some s') : s'.Guarded := by
  have grown : ∀ ref, ref ∈ s'.refs ↔ ref ∈ s.refs ∨ ref = ⟨s.nodes.length, .db⟩ := by
    intro ref
    cases step
    exact opens_refs rfl
  have new : (⟨s.nodes.length, .db⟩ : Ref) ∉ s.refs := by
    intro member
    obtain ⟨w, at_, _⟩ := mem_refs.mp member
    have inside := (List.getElem?_eq_some_iff.mp at_).1
    exact Nat.lt_irrefl _ inside
  apply make_guarded inv [⟨s.nodes.length, .db⟩]
  · exact fun ref member => (grown ref).mpr (.inl member)
  · cases step
    rfl
  · cases step
    rfl
  · cases step
    exact fun entry old => .inl old
  · intro ref told
    rw [List.mem_singleton.mp told]
    exact .inr ⟨(grown _).mpr (.inr rfl), new⟩
  · intro ref now fresh handle
    rcases (grown ref).mp now with before | rfl
    · exact absurd before fresh
    · exact absurd rfl handle

theorem native_refs {node : Nat} {w v : World R} {ref : Ref} (at_ : s.nodes[node]? = some w)
    (nodes : s'.nodes = s.nodes.set node v) :
    ref ∈ s'.refs ↔ if ref.node = node then ref.resource ∈ v.resources else ref ∈ s.refs := by
  have inside := (List.getElem?_eq_some_iff.mp at_).1
  rw [mem_refs, nodes]
  split
  · rename_i here
    simp [here, List.getElem?_set_self inside]
  · rename_i elsewhere
    rw [List.getElem?_set_ne (Ne.symm elsewhere), mem_refs]

theorem node_refs {node : Nat} {w : World R} (at_ : s.nodes[node]? = some w) (r : Resource) :
    ⟨node, r⟩ ∈ s.refs ↔ r ∈ w.resources := by
  simp [mem_refs, at_]

theorem native_guarded (inv : s.Guarded) {node : Nat} {call : Call}
    (step : s.step rt (.native node call) = some s') : s'.Guarded := by
  obtain ⟨w, at_, rest⟩ := Option.bind_eq_some_iff.mp step
  split at rest
  · rename_i known
    have passes := w.step_passes rt call
    have old := node_refs at_
    have grown : ∀ ref, ref ∈ s'.refs ↔
        if ref.node = node then ref.resource ∈ (w.step rt call).2.resources else ref ∈ s.refs := by
      intro ref
      cases rest
      exact native_refs at_ rfl
    apply make_guarded inv ((w.step rt call).1.resources.map (Ref.mk node))
    · rintro ⟨node', r⟩ member
      rw [grown]
      split
      · rename_i here
        subst here
        exact passes.kept r ((old r).mp member)
      · exact member
    · cases rest
      rfl
    · cases rest
      rfl
    · cases rest
      exact fun entry old => .inl old
    · intro ref told
      obtain ⟨r, refers, rfl⟩ := List.mem_map.mp told
      rcases passes.told r refers with given | ⟨now, new⟩
      · exact .inl (known r given)
      · refine .inr ⟨(grown _).mpr ?_, fun before => new ((old r).mp before)⟩
        rw [if_pos rfl]
        exact now
    · rintro ⟨node', r⟩ now new _
      rw [grown] at now
      split at now
      · rename_i here
        subst here
        have some_ := passes.made r now fun before => new ((old r).mpr before)
        obtain ⟨base, given⟩ := List.exists_mem_of_ne_nil _ some_
        have reachable := known base given
        by_cases handle : base = .db
        · rw [handle] at reachable
          exact .inl reachable
        · exact .inr ⟨base, handle, reachable⟩
      · exact absurd now new
  · cases rest

theorem across_other {node through : Nat} {r : Resource} (other : r ≠ .db) :
    Ref.across node through r = ⟨node, r⟩ := by
  cases r with
  | db => exact absurd rfl other
  | snapshot id | iterator id => rfl

/-- What is made belongs to the snapshot's database, and crosses by the handle in the tuple. -/
theorem across_guarded (inv : s.Guarded) {node through : Nat} {call : Call}
    (step : s.step rt (.across node through call) = some s') : s'.Guarded := by
  obtain ⟨w, at_, rest⟩ := Option.bind_eq_some_iff.mp step
  obtain ⟨v, _, rest⟩ := Option.bind_eq_some_iff.mp rest
  split at rest
  · rename_i allowed
    obtain ⟨_, handle, ⟨base, given, other⟩, known⟩ := allowed
    have passes := ({ w with handle := v.handle } : World R).step_passes rt call
    generalize ({ w with handle := v.handle } : World R).step rt call = result at passes rest
    obtain ⟨reply, w'⟩ := result
    have old := node_refs at_
    have grown : ∀ ref, ref ∈ s'.refs ↔
        if ref.node = node then ref.resource ∈ w'.resources else ref ∈ s.refs := by
      intro ref
      cases rest
      exact native_refs (v := { w' with handle := w.handle }) at_ rfl
    apply make_guarded inv (reply.resources.map (Ref.across node through))
    · rintro ⟨node', r⟩ member
      rw [grown]
      split
      · rename_i here
        subst here
        exact passes.kept r ((old r).mp member)
      · exact member
    · cases rest
      rfl
    · cases rest
      rfl
    · cases rest
      intro entry member
      rcases List.mem_append.mp member with old | new
      · exact .inl old
      · obtain ⟨ref, told, rfl⟩ := List.mem_map.mp new
        exact .inr ⟨by simpa using List.mem_filter.mp told, known .db handle⟩
    · intro ref told
      obtain ⟨r, refers, rfl⟩ := List.mem_map.mp told
      rcases passes.told r refers with given | ⟨now, new⟩
      · exact .inl (known r given)
      · have made : r ≠ .db := by
          rintro rfl
          exact new List.mem_cons_self
        rw [across_other made]
        refine .inr ⟨(grown _).mpr ?_, fun before => new ((old r).mp before)⟩
        rw [if_pos rfl]
        exact now
    · rintro ⟨node', r⟩ now new _
      rw [grown] at now
      split at now
      · rename_i here
        subst here
        have reachable := known base given
        rw [across_other other] at reachable
        exact .inr ⟨base, other, reachable⟩
      · exact absurd now new
  · cases rest

theorem mem_dependents {ref : Ref} :
    ref ∈ s.dependents ↔ s.custody.Live ref ∧ ref.resource ≠ .db := by
  simp only [dependents, List.mem_filter, decide_eq_true_eq]
  exact ⟨fun ⟨made, handle, alive⟩ => ⟨⟨made, alive⟩, handle⟩,
    fun ⟨⟨made, alive⟩, handle⟩ => ⟨made, handle, alive⟩⟩

theorem step_guarded (inv : s.Guarded) {act : Act R} (careful : act.Careful s)
    (step : s.step rt act = some s') : s'.Guarded := by
  cases act with
  | opens db => exact opens_guarded inv db step
  | native node call => exact native_guarded inv step
  | across node through call => exact across_guarded inv step
  | hold refs =>
    rw [System.step] at step
    split at step
    · rename_i known
      cases step
      apply make_guarded inv refs
      · exact fun ref member => member
      · rfl
      · rfl
      · exact fun entry old => .inl old
      · exact fun ref told => .inl (known ref told)
      · exact fun ref now new => absurd now new
    · cases step
  | drop k =>
    cases step
    refine ⟨Custody.drop_guarded inv.custody (k := k) ?_, inv.made⟩
    rintro d b live ⟨handle, node, owner, rfl⟩
    have left := careful d (mem_dependents.mpr ⟨live, handle⟩) node owner
    exact List.mem_flatten.mp left
  | collect ref =>
    rw [System.step] at step
    split at step
    · rename_i free
      have same : s'.custody = s.custody.collect ref := by
        cases step
        have added : {other | other ∈ ref :: s.destroyed} =
            insert ref {other | other ∈ s.destroyed} := Set.ext fun other => List.mem_cons
        simp only [custody, Custody.State.collect, added]
        rfl
      have guarded := Custody.collect_guarded inv.custody free.1 fun held =>
        free.2.2 (custody_held.mp held)
      rw [← same] at guarded
      cases step
      exact ⟨guarded, inv.made⟩
    · cases step

theorem empty_guarded : (empty : System R).Guarded := by
  refine ⟨⟨?_, ?_, ?_⟩, ?_⟩
  · rintro ref ⟨term, member, _⟩
    cases member
  · intro ref gone
    cases gone
  · rintro d b ⟨made, _⟩
    cases made
  · intro entry member
    cases member

theorem reached_guarded (reached : Reached rt (fun s act => act.Careful s) s) : s.Guarded := by
  induction reached with
  | start => exact empty_guarded
  | step act _ careful step ih => exact step_guarded ih careful step

theorem guarded_open (inv : s.Guarded) {ref : Ref} (live : s.custody.Live ref)
    (handle : ref.resource ≠ .db) {node : Nat} (owner : node ∈ s.owners ref) : ¬ s.Closed node :=
  (Custody.base_live inv.custody live ⟨handle, node, owner, rfl⟩).2

theorem reachable_open (inv : s.Guarded) {ref : Ref} (reachable : ref ∈ s.reachable) {node : Nat}
    (owner : node ∈ s.owners ref) : ¬ s.Closed node := by
  have live := inv.custody.held_live ref (custody_held.mpr reachable)
  by_cases handle : ref.resource = .db
  · rcases mem_owners.mp owner with rfl | entry
    · obtain ⟨node, r⟩ := ref
      subst handle
      exact live.2
    · exact absurd handle (inv.made _ entry).2
  · exact guarded_open inv live handle owner

theorem uses_open (inv : s.Guarded) {act : Act R} {node : Nat}
    (step : s.step rt act = some s') (uses : act.Uses s node) : ¬ s.Closed node := by
  cases act with
  | native node' call =>
    obtain ⟨r, given, owner⟩ := uses
    obtain ⟨w, _, rest⟩ := Option.bind_eq_some_iff.mp step
    split at rest
    · rename_i known
      exact reachable_open inv (known r given) owner
    · cases rest
  | across node' through call =>
    obtain ⟨r, given, owner⟩ := uses
    obtain ⟨w, _, rest⟩ := Option.bind_eq_some_iff.mp step
    obtain ⟨v, _, rest⟩ := Option.bind_eq_some_iff.mp rest
    split at rest
    · rename_i allowed
      exact reachable_open inv (allowed.2.2.2 r given) owner
    · cases rest
  | collect ref =>
    obtain ⟨owner, handle⟩ := uses
    rw [System.step] at step
    split at step
    · rename_i free
      exact guarded_open inv ⟨free.1, free.2.1⟩ handle owner
    · cases step
  | _ => cases uses

/-- After any other drop, destroying a handle that became unreachable is enough. -/
theorem careless_unsafe (rt : Rustler) (inv : s.Guarded) {k : Nat}
    (careless : ¬ (Act.drop k).Careful s) : ∃ node s' s'', s.step rt (.drop k) = some s' ∧
      s'.step rt (.collect ⟨node, .db⟩) = some s'' ∧ ¬ s''.Safe := by
  simp only [Act.Careful, not_forall] at careless
  obtain ⟨ref, dependent, node, owner, unreachable⟩ := careless
  obtain ⟨live, handle⟩ := mem_dependents.mp dependent
  have base := Custody.base_live inv.custody live ⟨handle, node, owner, rfl⟩
  refine ⟨node, _, _, rfl, if_pos ⟨base.1, base.2, unreachable⟩, ?_⟩
  intro safe
  have other : ref ≠ ⟨node, .db⟩ := fun same => handle (congrArg Ref.resource same)
  have left : ref ∈ s.custody.made ∧ ref ∉ (⟨node, .db⟩ : Ref) :: s.destroyed :=
    ⟨live.1, List.not_mem_cons_of_ne_of_not_mem other live.2⟩
  exact safe ref (mem_dependents.mpr ⟨left, handle⟩) node owner List.mem_cons_self

/-- As long as handles are dropped last, no snapshot and no iterator outlives its database,
and no step works on a closed one. The first drop that breaks this rule lets one outlive. -/
theorem databases_outlive (reached : Reached rt (fun s act => act.Careful s) s) :
    s.Safe ∧
    (∀ act s' node, s.step rt act = some s' → act.Uses s node → ¬ s.Closed node) ∧
    ∀ k, ¬ (Act.drop k).Careful s → ∃ node s' s'', s.step rt (.drop k) = some s' ∧
      s'.step rt (.collect ⟨node, .db⟩) = some s'' ∧ ¬ s''.Safe := by
  have inv := reached_guarded reached
  refine ⟨?_, ?_, ?_⟩
  · intro ref dependent node owner
    obtain ⟨live, handle⟩ := mem_dependents.mp dependent
    exact guarded_open inv live handle owner
  · intro act s' node step uses
    exact uses_open inv step uses
  · intro k careless
    exact careless_unsafe rt inv careless

def lent : System Memory.rocksDb where
  nodes :=
    [((World.opened Memory.empty).step Memory.rustler (.iterator (.tuple [.atom "start"]))).2]
  held := [[⟨0, .db⟩], [⟨0, .iterator 0⟩]]
  destroyed := []
  crossed := []

/- The iterator goes first, and then the handle is dropped. -/
theorem databases_outlive_iterator :
    let s : System Memory.rocksDb := ⟨lent.nodes, [], [⟨0, .iterator 0⟩], []⟩
    s.Safe ∧ ∀ act s' node, s.step Memory.rustler act = some s' → act.Uses s node →
      ¬ s.Closed node :=
  have lending : Reached Memory.rustler (fun s act => act.Careful s) lent :=
    .step (.native 0 (.iterator (.tuple [.atom "start"])))
      (.step (.opens Memory.empty) .start trivial rfl) trivial rfl
  have outlive := databases_outlive (.step (.drop 0) (.step (.collect ⟨0, .iterator 0⟩)
    (.step (.drop 1) lending (by decide) rfl) trivial rfl) (by decide) rfl)
  ⟨outlive.1, outlive.2.1⟩

/-- The same after the handle was dropped and destroyed. -/
def orphaned : System Memory.rocksDb :=
  ⟨lent.nodes, [[⟨0, .iterator 0⟩]], [⟨0, .db⟩], []⟩

/- An iterator is returned without its handle, and next is still called on it. -/
theorem iterator_outlives_database :
    (orphaned.step Memory.rustler (.native 0 (.next (.resource (.iterator 0))))).isSome = true ∧
      ¬ ∀ s : System Memory.rocksDb, Reached Memory.rustler (fun _ _ => True) s →
        s.Safe ∧ ∀ act s' node, s.step Memory.rustler act = some s' → act.Uses s node →
          ¬ s.Closed node := by
  refine ⟨rfl, ?_⟩
  intro outlive
  have lending : Reached Memory.rustler (fun _ _ => True) lent :=
    .step (.native 0 (.iterator (.tuple [.atom "start"])))
      (.step (.opens Memory.empty) .start trivial rfl) trivial rfl
  have reached : Reached Memory.rustler (fun _ _ => True) orphaned :=
    .step (.collect ⟨0, .db⟩) (.step (.drop 0) lending trivial rfl) trivial rfl
  exact (outlive orphaned reached).1 ⟨0, .iterator 0⟩ (by decide) 0 List.mem_cons_self
    List.mem_cons_self

end System
end ExRocket
