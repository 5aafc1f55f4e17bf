import ExRocket.Library.Compaction
import Mathlib.Data.Set.Insert

/-! Named tables, each with its own merge operator, and commands that act on them at once. A store
that piles up merges and compacts whenever it likes stands for the tables that its readers see:
what a command does to the store, it does to them. -/
namespace Tables

open Regroup Relation

variable {N K V S : Type}

inductive Command (N K V : Type) where
  | put (name : N) (key : K) (value : V)
  | delete (name : N) (key : K)
  | merge (name : N) (key : K) (operand : V)
  | clear (name : N) (covers : K → Bool)
  | create (name : N) (operator : K → Operator V)
  | drop (name : N)

structure Contents (N K V : Type) where
  names : Set N
  operator : N → K → Operator V
  value : N → K → Option V

/-- How a store keeps its tables: a base and pending operands for each key. -/
structure View (S N K V : Type) where
  names : S → Set N
  operator : S → N → K → Operator V
  pending : S → N → K → Pending V

def View.contents (view : View S N K V) (s : S) : Contents N K V :=
  ⟨view.names s, view.operator s, fun n k => (view.pending s n k).read (view.operator s n k)⟩

theorem settled_value {view : View S N K V} {s : S} {n : N} {k : K} {base : Option V}
    (settled : view.pending s n k = ⟨base, []⟩) : (view.contents s).value n k = base := by
  change (view.pending s n k).read (view.operator s n k) = base
  rw [settled]
  rfl

section Apply

variable [DecidableEq N] [DecidableEq K]

/-- What a command does to a key. A table is empty when it is made, and once it is gone. -/
def Command.onKey (n : N) (k : K) : Command N K V → Write V
  | put name key v => if name = n ∧ key = k then .put v else .keep
  | delete name key => if name = n ∧ key = k then .delete else .keep
  | merge name key v => if name = n ∧ key = k then .merge v else .keep
  | clear name covers => if name = n ∧ covers k then .delete else .keep
  | create name _ | drop name => if name = n then .delete else .keep

def Command.onNames (names : Set N) : Command N K V → Set N
  | create name _ => insert name names
  | drop name => names \ {name}
  | _ => names

/-- Where there is no table, nothing merges. -/
def Command.onOperator (n : N) (m : K → Operator V) : Command N K V → K → Operator V
  | create name m' => if name = n then m' else m
  | drop name => if name = n then fun _ _ _ => none else m
  | _ => m

def Contents.apply (c : Contents N K V) (command : Command N K V) : Contents N K V :=
  ⟨command.onNames c.names, fun n => command.onOperator n (c.operator n),
    fun n k => (command.onKey n k).act (c.operator n k) (c.value n k)⟩

def Contents.run (c : Contents N K V) (commands : List (Command N K V)) : Contents N K V :=
  commands.foldl Contents.apply c

/-- An operand is of the kind, and a table is made with an operator to which it does not matter
when operands of the kind are merged. -/
def Command.Admitted (n : N) (k : K) (P : V → Prop) (command : Command N K V) : Prop :=
  (command.onKey n k).Admitted P ∧ ∀ m, command = .create n m → Timeless (m k) P

/-- The store does what the command does, and may compact any key. -/
structure View.Keeps (view : View S N K V) (command : Command N K V) (s s' : S) : Prop where
  names : view.names s' = command.onNames (view.names s)
  operator : ∀ n, view.operator s' n = command.onOperator n (view.operator s n)
  pending : ∀ n k, ReflTransGen (Compacts (view.operator s' n k))
    ((command.onKey n k).apply (view.pending s n k)) (view.pending s' n k)

inductive View.Performs (view : View S N K V) : List (Command N K V) → S → S → Prop where
  | nothing {s : S} : Performs view [] s s
  | command {command : Command N K V} {commands : List (Command N K V)} {s s' s'' : S} :
      view.Keeps command s s' → Performs view commands s' s'' →
      Performs view (command :: commands) s s''

variable {view : View S N K V} {s s' : S} {n : N} {k : K} {P : V → Prop}
  {commands : List (Command N K V)}

theorem run_cons (c : Contents N K V) (command : Command N K V)
    (commands : List (Command N K V)) :
    c.run (command :: commands) = (c.apply command).run commands := rfl

theorem performs_append {more : List (Command N K V)} {s'' : S}
    (first : view.Performs commands s s') (second : view.Performs more s' s'') :
    view.Performs (commands ++ more) s s'' := by
  induction first with
  | nothing => exact second
  | command keeps _ ih => exact .command keeps (ih second)

/-- A table that does not keep its operator is empty. -/
theorem onOperator_cases (command : Command N K V) (n : N) (m : K → Operator V) :
    command.onOperator n m = m ∨ ∀ k, command.onKey n k = .delete := by
  cases command with
  | create name | drop name =>
    by_cases here : name = n
    · exact .inr fun k => by rw [Command.onKey, if_pos here]
    · exact .inl (by rw [Command.onOperator, if_neg here])
  | _ => exact .inl rfl

theorem onOperator_timeless {command : Command N K V} {m : K → Operator V}
    (timeless : Timeless (m k) P) (admitted : command.Admitted n k P) :
    Timeless (command.onOperator n m k) P := by
  cases command with
  | create name m' =>
    rw [Command.onOperator]
    split
    · rename_i here
      exact admitted.2 m' (by rw [here])
    · exact timeless
  | drop name =>
    rw [Command.onOperator]
    split
    · exact .inl fun _ _ => rfl
    · exact timeless
  | _ => exact timeless

theorem value_step (timeless : Timeless (view.operator s n k) P)
    (admits : (view.pending s n k).Admits P) {command : Command N K V}
    (admitted : command.Admitted n k P) (keeps : view.Keeps command s s') :
    (view.contents s').value n k = ((view.contents s).apply command).value n k ∧
      Timeless (view.operator s' n k) P ∧ (view.pending s' n k).Admits P := by
  have compacts := keeps.pending n k
  have timeless' := onOperator_timeless timeless admitted
  rw [← keeps.operator n] at timeless'
  rcases onOperator_cases command n (view.operator s n) with same | deletes
  · rw [← keeps.operator n] at same
    obtain ⟨value, admits'⟩ := read_run timeless' admits admitted.1 compacts
    have reads : (view.contents s').value n k = _ := value
    refine ⟨?_, timeless', admits'⟩
    rw [reads, same]
    rfl
  · rw [deletes k] at compacts
    have settled := settled_compacts compacts
    refine ⟨?_, timeless', by simp [settled, Pending.Admits]⟩
    simp only [settled_value settled, Contents.apply, deletes k, Write.act]

theorem value_congr {c c' : Contents N K V} (operators : c.operator n = c'.operator n)
    (values : c.value n k = c'.value n k) (commands : List (Command N K V)) :
    (c.run commands).value n k = (c'.run commands).value n k := by
  induction commands generalizing c c' with
  | nil => exact values
  | cons command commands ih =>
    rw [run_cons, run_cons]
    apply ih
    · simp only [Contents.apply, operators]
    · simp only [Contents.apply, operators, values]

theorem value_run (timeless : Timeless (view.operator s n k) P)
    (admits : (view.pending s n k).Admits P)
    (admitted : ∀ command ∈ commands, command.Admitted n k P)
    (performs : view.Performs commands s s') :
    (view.contents s').value n k = ((view.contents s).run commands).value n k := by
  induction performs with
  | nothing => rfl
  | command keeps _ ih =>
    obtain ⟨first, rest⟩ := List.forall_mem_cons.mp admitted
    obtain ⟨same, timeless', admits'⟩ := value_step timeless admits first keeps
    rw [ih timeless' admits' rest, run_cons]
    exact value_congr (keeps.operator n) same _

theorem shape_run (performs : view.Performs commands s s') :
    view.names s' = ((view.contents s).run commands).names ∧
      view.operator s' = ((view.contents s).run commands).operator := by
  have shaped : ∀ c : Contents N K V, c.names = view.names s → c.operator = view.operator s →
      view.names s' = (c.run commands).names ∧ view.operator s' = (c.run commands).operator := by
    induction performs with
    | nothing => exact fun c names operators => ⟨names.symm, operators.symm⟩
    | command keeps _ ih =>
      intro c names operators
      rw [run_cons]
      apply ih
      · rw [Contents.apply, names, keeps.names]
      · funext n
        rw [Contents.apply, operators, keeps.operator]
  exact shaped _ rfl rfl

/-- A store to which it does not matter when the operands that are given are merged stands for
tables on which every command acts at once. -/
theorem contents_run {P : N → K → V → Prop}
    (timeless : ∀ n k, Timeless (view.operator s n k) (P n k))
    (admits : ∀ n k, (view.pending s n k).Admits (P n k))
    (admitted : ∀ n k, ∀ command ∈ commands, command.Admitted n k (P n k))
    (performs : view.Performs commands s s') :
    view.contents s' = (view.contents s).run commands := by
  have values : (view.contents s').value = ((view.contents s).run commands).value := by
    funext n k
    exact value_run (timeless n k) (admits n k) (admitted n k) performs
  obtain ⟨names, operators⟩ := shape_run performs
  calc view.contents s' = ⟨view.names s', view.operator s', (view.contents s').value⟩ := rfl
    _ = (view.contents s).run commands := by rw [names, operators, values]

/-- A key with nothing pending keeps its value, under any operator, until a command is for it. -/
theorem settled_run {base : Option V} (settled : view.pending s n k = ⟨base, []⟩)
    (keeps : ∀ command ∈ commands, command.onKey n k = .keep)
    (performs : view.Performs commands s s') : view.pending s' n k = ⟨base, []⟩ := by
  induction performs with
  | nothing => exact settled
  | command first _ ih =>
    obtain ⟨here, rest⟩ := List.forall_mem_cons.mp keeps
    apply ih _ rest
    have compacts := first.pending n k
    rw [here, settled] at compacts
    exact settled_compacts compacts

theorem counts_run {m m' : Operator V} {M : Type} [AddCommMonoid M] {sums : Summing m' M}
    (sumsOn : SumsOn sums m P) {c : Contents N K V} (operator : c.operator n k = m)
    (merges : ∀ command ∈ commands, command.onKey n k = .keep ∨
      ∃ v, P v ∧ command.onKey n k = .merge v) :
    sums.start ((c.run commands).value n k) = sums.start (c.value n k) +
      ((merged (commands.map (Command.onKey n k))).map sums.value).sum := by
  induction commands generalizing c with
  | nil => simp [Contents.run, merged]
  | cons command commands ih =>
    obtain ⟨first, rest⟩ := List.forall_mem_cons.mp merges
    have operator' : (c.apply command).operator n k = m := by
      rcases onOperator_cases command n (c.operator n) with same | deletes
      · exact (congrFun same k).trans operator
      · simp [deletes k] at first
    rw [run_cons, ih operator' rest, Contents.apply, List.map_cons]
    rcases first with keep | ⟨v, kind, merge⟩
    · simp only [keep, Write.act, merged]
    · simp only [merge, operator, sumsOn.act_value _ kind, merged, List.map_cons, List.sum_cons,
        add_assoc]

end Apply
end Tables
