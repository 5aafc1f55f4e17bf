import Mathlib.Data.Set.Basic

/-! Custody of resources. A resource is destroyed at some time after the last term that
refers to it is gone, and resources do not refer to one another; yet some must not outlive
others. They do not, as long as whatever they depend on is still referred to itself. -/
namespace Custody

variable {ρ : Type}

structure State (ρ : Type) where
  made : Set ρ
  destroyed : Set ρ
  /-- The terms that exist, each by what it refers to. -/
  held : List (List ρ)

namespace State

def Held (s : State ρ) (r : ρ) : Prop := ∃ term ∈ s.held, r ∈ term

def Live (s : State ρ) (r : ρ) : Prop := r ∈ s.made ∧ r ∉ s.destroyed

def make (s : State ρ) (fresh : Set ρ) (told : List ρ) : State ρ :=
  { s with made := s.made ∪ fresh, held := s.held ++ [told] }

def drop (s : State ρ) (k : Nat) : State ρ := { s with held := s.held.eraseIdx k }

def collect (s : State ρ) (r : ρ) : State ρ := { s with destroyed := insert r s.destroyed }

theorem make_held {s : State ρ} {fresh : Set ρ} {told : List ρ} {r : ρ} :
    (s.make fresh told).Held r ↔ s.Held r ∨ r ∈ told := by
  simp [Held, make, or_and_right, exists_or]

theorem drop_held {s : State ρ} {k : Nat} {r : ρ} (held : (s.drop k).Held r) : s.Held r := by
  obtain ⟨term, member, refers⟩ := held
  exact ⟨term, List.mem_of_mem_eraseIdx member, refers⟩

end State

variable (dependsOn : ρ → ρ → Prop)

/-- Whatever a live resource depends on is referred to by a term. -/
structure Guarded (s : State ρ) : Prop where
  held_live : ∀ r, s.Held r → s.Live r
  destroyed_made : ∀ r ∈ s.destroyed, r ∈ s.made
  guarded : ∀ d b, s.Live d → dependsOn d b → s.Held b

variable {dependsOn} {s : State ρ}

theorem base_live (inv : Guarded dependsOn s) {d b : ρ} (live : s.Live d)
    (depends : dependsOn d b) : s.Live b :=
  inv.held_live b (inv.guarded d b live depends)

/-- What is made depends on what is held, or on what something held depends on already. -/
theorem make_guarded (inv : Guarded dependsOn s) {fresh : Set ρ} {told : List ρ}
    (new : ∀ r ∈ fresh, r ∉ s.made) (known : ∀ r ∈ told, s.Held r ∨ r ∈ fresh)
    (based : ∀ d ∈ fresh, ∀ b, dependsOn d b → (s.make fresh told).Held b ∨
      ∃ d', s.Held d' ∧ dependsOn d' b) : Guarded dependsOn (s.make fresh told) := by
  have stays : ∀ r, s.Live r → (s.make fresh told).Live r :=
    fun r live => ⟨.inl live.1, live.2⟩
  have starts : ∀ r ∈ fresh, (s.make fresh told).Live r :=
    fun r member => ⟨.inr member, fun gone => new r member (inv.destroyed_made r gone)⟩
  constructor
  · intro r held
    rcases State.make_held.mp held with before | now
    · exact stays r (inv.held_live r before)
    · rcases known r now with before | member
      · exact stays r (inv.held_live r before)
      · exact starts r member
  · intro r gone
    exact .inl (inv.destroyed_made r gone)
  · rintro d b ⟨before | member, alive⟩ depends
    · exact State.make_held.mpr (.inl (inv.guarded d b ⟨before, alive⟩ depends))
    · rcases based d member b depends with held | ⟨d', held, depends'⟩
      · exact held
      · exact State.make_held.mpr (.inl (inv.guarded d' b (inv.held_live d' held) depends'))

/-- A reference may be dropped if what live resources depend on is still referred to. -/
theorem drop_guarded (inv : Guarded dependsOn s) {k : Nat}
    (careful : ∀ d b, s.Live d → dependsOn d b → (s.drop k).Held b) :
    Guarded dependsOn (s.drop k) :=
  ⟨fun r held => inv.held_live r (State.drop_held held), inv.destroyed_made, careful⟩

theorem collect_guarded (inv : Guarded dependsOn s) {r : ρ} (made : r ∈ s.made)
    (free : ¬ s.Held r) : Guarded dependsOn (s.collect r) := by
  constructor
  · intro r' held
    obtain ⟨made', alive⟩ := inv.held_live r' held
    refine ⟨made', ?_⟩
    rintro (rfl | gone)
    · exact free held
    · exact alive gone
  · rintro r' (rfl | gone)
    · exact made
    · exact inv.destroyed_made r' gone
  · rintro d b ⟨made', alive⟩ depends
    exact inv.guarded d b ⟨made', fun gone => alive (.inr gone)⟩ depends

end Custody
