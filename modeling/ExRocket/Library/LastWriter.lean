import Mathlib.Data.List.DropRight
import Mathlib.Order.Bounds.Basic

/-! Cells under a sequence of writes and clears, over any index type. The last action
that touches a cell decides it; the extent grows with the writes and falls back to the
bottom on a clear. Two starting points stay apart exactly until an action decides. -/
namespace LastWriter

variable {I V H : Type}

inductive Action (I V : Type) where
  | clear
  | write (i : I) (v : V)
  | skip
  deriving DecidableEq

namespace Action

section

variable [DecidableEq I]

def cell (blank : V) (i : I) (x : V) : Action I V → V
  | clear => blank
  | write j v => if j = i then v else x
  | skip => x

def Decides (i : I) : Action I V → Prop
  | clear => True
  | write j _ => j = i
  | skip => False

instance (i : I) (act : Action I V) : Decidable (act.Decides i) :=
  match act with
  | clear => .isTrue trivial
  | write j _ => inferInstanceAs (Decidable (j = i))
  | skip => .isFalse id

end

/-- How far an action makes the cells reach. -/
def height [Bot H] (h : I → V → H) : Action I V → H
  | write i v => h i v
  | clear | skip => ⊥

def extent [SemilatticeSup H] [OrderBot H] (h : I → V → H) (n : H) : Action I V → H
  | clear => ⊥
  | write i v => n ⊔ h i v
  | skip => n

end Action

section Cells

variable [DecidableEq I]

def cells (blank : V) (i : I) (acts : List (Action I V)) (x : V) : V :=
  acts.foldl (Action.cell blank i) x

theorem cells_append (blank : V) (i : I) (acts acts' : List (Action I V)) (x : V) :
    cells blank i (acts ++ acts') x = cells blank i acts' (cells blank i acts x) :=
  List.foldl_append

theorem cell_undecided (blank : V) {i : I} {act : Action I V} (x : V)
    (free : ¬ act.Decides i) : act.cell blank i x = x := by
  cases act with
  | clear => exact absurd trivial free
  | write j v => exact if_neg free
  | skip => rfl

theorem cell_decided (blank : V) {i : I} {act : Action I V} (x y : V)
    (decides : act.Decides i) : act.cell blank i x = act.cell blank i y := by
  cases act with
  | clear => rfl
  | write j v => exact (if_pos decides).trans (if_pos decides).symm
  | skip => exact decides.elim

/-- A cell forgets where it started exactly when some action decides it. -/
theorem cells_eq_iff (blank : V) (i : I) (acts : List (Action I V)) (x y : V) :
    cells blank i acts x = cells blank i acts y ↔ (∃ act ∈ acts, act.Decides i) ∨ x = y := by
  induction acts generalizing x y with
  | nil => simp [cells]
  | cons act acts ih =>
    have step := ih (act.cell blank i x) (act.cell blank i y)
    refine step.trans ?_
    by_cases decides : act.Decides i
    · simp [decides, cell_decided blank x y decides]
    · simp [decides, cell_undecided blank x decides, cell_undecided blank y decides]

/-- The last action that decides a cell. -/
def lastDecision (i : I) (acts : List (Action I V)) : Option (Action I V) :=
  acts.reverse.find? fun act => decide (act.Decides i)

theorem lastDecision_concat (i : I) (acts : List (Action I V)) (act : Action I V) :
    lastDecision i (acts ++ [act]) = if act.Decides i then some act else lastDecision i acts := by
  rw [lastDecision, List.reverse_append, List.reverse_singleton, List.singleton_append,
    List.find?_cons]
  by_cases decides : act.Decides i <;> simp [decides, lastDecision]

theorem lastDecision_decides {i : I} {acts : List (Action I V)} {act : Action I V}
    (last : lastDecision i acts = some act) : act.Decides i := by
  have found := List.find?_some last
  exact of_decide_eq_true found

/-- A cell ends as its last decision leaves it, or as it was when nothing decides it. -/
theorem cells_eq_last (blank : V) (i : I) (acts : List (Action I V)) (x : V) :
    cells blank i acts x = (lastDecision i acts).elim x fun act => act.cell blank i x := by
  induction acts using List.reverseRecOn with
  | nil => rfl
  | append_singleton acts act ih =>
    rw [cells_append, lastDecision_concat]
    change act.cell blank i (cells blank i acts x) = _
    by_cases decides : act.Decides i
    · rw [if_pos decides]
      exact cell_decided blank _ x decides
    · rw [if_neg decides, cell_undecided blank _ decides]
      exact ih

/-- Writes to different cells may change places. -/
theorem cells_swap (blank : V) (k : I) {i j : I} (v w : V) (apart : i ≠ j)
    (before after : List (Action I V)) (x : V) :
    cells blank k (before ++ [.write i v, .write j w] ++ after) x =
      cells blank k (before ++ [.write j w, .write i v] ++ after) x := by
  simp only [cells_append]
  congr 1
  change (if j = k then w else if i = k then v else _) = if i = k then v else if j = k then w else _
  by_cases first : i = k
  · have other : j ≠ k := fun second => apart (first.trans second.symm)
    simp only [if_pos first, if_neg other]
  · simp only [if_neg first]

end Cells

section Extent

variable [SemilatticeSup H] [OrderBot H] (h : I → V → H)

def extents (acts : List (Action I V)) (n : H) : H := acts.foldl (Action.extent h) n

/-- The supremum of what the actions reach. -/
def reach (acts : List (Action I V)) : H := acts.foldr (fun act n => act.height h ⊔ n) ⊥

theorem extents_append (acts acts' : List (Action I V)) (n : H) :
    extents h (acts ++ acts') n = extents h acts' (extents h acts n) :=
  List.foldl_append

theorem extents_eq_iff (acts : List (Action I V)) (n m : H) :
    extents h acts n = extents h acts m ↔
      .clear ∈ acts ∨ n ⊔ reach h acts = m ⊔ reach h acts := by
  induction acts generalizing n m with
  | nil => simp [extents, reach]
  | cons act acts ih =>
    have step := ih (act.extent h n) (act.extent h m)
    refine step.trans ?_
    cases act with
    | clear => simp [Action.extent]
    | write i v => simp [Action.extent, reach, Action.height, sup_assoc]
    | skip => simp [Action.extent, reach, Action.height]

theorem extents_swap (i j : I) (v w : V) (before after : List (Action I V)) (n : H) :
    extents h (before ++ [.write i v, .write j w] ++ after) n =
      extents h (before ++ [.write j w, .write i v] ++ after) n := by
  simp only [extents_append]
  congr 1
  exact sup_right_comm _ _ _

theorem reach_concat (acts : List (Action I V)) (act : Action I V) :
    reach h (acts ++ [act]) = reach h acts ⊔ act.height h := by
  induction acts with
  | nil => simp [reach]
  | cons first acts ih =>
    change first.height h ⊔ reach h (acts ++ [act]) = first.height h ⊔ reach h acts ⊔ _
    rw [ih, sup_assoc]

theorem height_le_reach {acts : List (Action I V)} {act : Action I V} (member : act ∈ acts) :
    act.height h ≤ reach h acts := by
  induction acts with
  | nil => cases member
  | cons first acts ih =>
    change _ ≤ first.height h ⊔ reach h acts
    rcases List.mem_cons.mp member with rfl | later
    · exact le_sup_left
    · exact le_sup_of_le_right (ih later)

variable [DecidableEq I] [DecidableEq V]

/-- The actions after the last clear. -/
def sinceClear (acts : List (Action I V)) : List (Action I V) :=
  acts.rtakeWhile fun act => decide (act ≠ .clear)

/-- How far the cells reach: as before, unless there is a clear, and as far as the writes
after the last clear go. -/
theorem extents_eq (acts : List (Action I V)) (n : H) :
    extents h acts n = (if .clear ∈ acts then ⊥ else n) ⊔ reach h (sinceClear acts) := by
  induction acts using List.reverseRecOn with
  | nil => simp [extents, reach, sinceClear]
  | append_singleton acts act ih =>
    rw [extents_append, sinceClear, List.rtakeWhile_concat]
    change act.extent h (extents h acts n) = _
    cases act with
    | clear => simp [Action.extent, reach]
    | write i v => simp [Action.extent, ih, reach_concat, Action.height, sinceClear, sup_assoc]
    | skip => simp [Action.extent, ih, reach_concat, Action.height, sinceClear]

end Extent

section Greatest

variable [LinearOrder H] [OrderBot H] (h : I → V → H)

theorem reach_cases (acts : List (Action I V)) :
    reach h acts = ⊥ ∨ ∃ act ∈ acts, reach h acts = act.height h := by
  induction acts with
  | nil => exact .inl rfl
  | cons first acts ih =>
    have step : reach h (first :: acts) = first.height h ⊔ reach h acts := rfl
    rcases le_total (first.height h) (reach h acts) with below | above
    · rw [step, sup_of_le_right below]
      rcases ih with bottom | ⟨act, member, value⟩
      · exact .inl bottom
      · exact .inr ⟨act, List.mem_cons_of_mem first member, value⟩
    · exact .inr ⟨first, List.mem_cons_self, step.trans (sup_of_le_left above)⟩

variable [DecidableEq I] [DecidableEq V]

theorem extents_isGreatest (acts : List (Action I V)) (n : H) :
    IsGreatest (insert (if .clear ∈ acts then ⊥ else n)
      {m | ∃ act ∈ sinceClear acts, m = act.height h}) (extents h acts n) := by
  rw [extents_eq]
  constructor
  · rcases le_total (reach h (sinceClear acts)) (if .clear ∈ acts then ⊥ else n) with below | above
    · exact .inl (sup_of_le_left below)
    · rw [sup_of_le_right above]
      rcases reach_cases h (sinceClear acts) with bottom | ⟨act, member, value⟩
      · rw [bottom] at above ⊢
        exact .inl (le_bot_iff.mp above).symm
      · exact .inr ⟨act, member, value⟩
  · rintro m (rfl | ⟨act, member, rfl⟩)
    · exact le_sup_left
    · exact le_sup_of_le_right (height_le_reach h member)

end Greatest
end LastWriter
