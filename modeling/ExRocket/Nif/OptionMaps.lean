import ExRocket.Library.Unordered
import ExRocket.Nif.BatchPanics
import ExRocket.Nif.Memory
import ExRocket.Nif.Run
import ExRocket.Nif.Snapshots

/-! Maps of options. In which order a map is iterated is up to its runtime, and no call that is
given one depends on it: neither what is decoded or handed over, nor whether it fails. -/
namespace ExRocket

open Rust Unordered

/-- What one entry of the map does to the options. -/
def optionChange (entry : Term × Term) : NifResult (RockerOptions → RockerOptions) := do
  let name ← entry.1.atomToString
  match optionKinds.lookup name with
  | some kind => do
    let v ← kind.decode entry.2
    return fun opts => (name, v) :: opts
  | none => return id

def readOptionChange (entry : Term × Term) : NifResult (RockerReadOptions → RockerReadOptions) := do
  match ← entry.1.atomToString with
  | "iterate_upper_bound" => do
    let bound ← entry.2.decodeString
    return fun opts => { opts with iterateUpperBound := some bound }
  | "iterate_lower_bound" => do
    let bound ← entry.2.decodeString
    return fun opts => { opts with iterateLowerBound := some bound }
  | _ => return id

/-- The same value under every name. -/
def SameOptions (opts opts' : RockerOptions) : Prop :=
  ∀ name, opts.lookup name = opts'.lookup name

def OtherKey (entry entry' : Term × Term) : Prop := entry.1 ≠ entry'.1

theorem atomToString_ok {t : Term} {name : String} (decodes : t.atomToString = .ok name) :
    t = .atom name := by
  cases t <;> cases decodes
  rfl

theorem decodeInt_error {low high : Int} {t : Term} {stop : Stop}
    (fails : decodeInt low high t = .error stop) : stop = .badarg := by
  unfold decodeInt at fails
  split at fails
  · split at fails <;> cases fails
    rfl
  · cases fails
    rfl

theorem string_error {t : Term} {stop : Stop} (fails : OptionKind.string.decode t = .error stop) :
    stop = .badarg := by
  rcases bind_error_iff.mp fails with decodes | ⟨text, _, none⟩
  · exact decodeString_error decodes
  · cases none

theorem kind_error {kind : OptionKind} {t : Term} {stop : Stop}
    (fails : kind.decode t = .error stop) : stop = .badarg := by
  cases kind with
  | i32 | u32 | i64 | u64 | usize => exact decodeInt_error fails
  | string => exact string_error fails
  | f64 => cases t <;> cases fails <;> rfl
  | bool =>
    cases t with
    | atom name =>
      simp only [OptionKind.decode] at fails
      split at fails <;> cases fails <;> rfl
    | _ =>
      cases fails
      rfl

theorem decodeOption_changes (opts : RockerOptions) (entry : Term × Term) :
    decodeOption opts entry = (optionChange entry).map fun change => change opts := by
  unfold decodeOption optionChange
  cases entry.1.atomToString with
  | error stop => rfl
  | ok name =>
    cases known : optionKinds.lookup name with
    | none => simp [known, bind, Except.bind, Except.map, pure, Except.pure]
    | some kind =>
      simp only [known, bind, Except.bind]
      cases kind.decode entry.2 <;> rfl

theorem decodeReadOption_changes (opts : RockerReadOptions) (entry : Term × Term) :
    decodeReadOption opts entry = (readOptionChange entry).map fun change => change opts := by
  unfold decodeReadOption readOptionChange
  cases entry.1.atomToString with
  | error stop => rfl
  | ok name =>
    by_cases upper : name = "iterate_upper_bound"
    · subst upper
      cases entry.2.decodeString <;> rfl
    · by_cases lower : name = "iterate_lower_bound"
      · subst lower
        cases entry.2.decodeString <;> rfl
      · simp [bind, Except.bind, pure, Except.pure, Except.map]

theorem optionChange_fails (entry : Term × Term) (stop : Stop)
    (fails : optionChange entry = .error stop) : stop = .badarg := by
  rcases bind_error_iff.mp fails with unnamed | ⟨name, _, rest⟩
  · exact atomToString_error unnamed
  · split at rest
    · rcases bind_error_iff.mp rest with decodes | ⟨v, _, none⟩
      · exact kind_error decodes
      · cases none
    · cases rest

theorem readOptionChange_fails (entry : Term × Term) (stop : Stop)
    (fails : readOptionChange entry = .error stop) : stop = .badarg := by
  rcases bind_error_iff.mp fails with unnamed | ⟨name, _, rest⟩
  · exact atomToString_error unnamed
  · split at rest
    · rcases bind_error_iff.mp rest with decodes | ⟨bound, _, none⟩
      · exact decodeString_error decodes
      · cases none
    · rcases bind_error_iff.mp rest with decodes | ⟨bound, _, none⟩
      · exact decodeString_error decodes
      · cases none
    · cases rest

/-- An entry sets the option that its key names, or none. -/
theorem optionChange_sets {entry : Term × Term} {change : RockerOptions → RockerOptions}
    (changes : optionChange entry = .ok change) :
    change = id ∨ ∃ name v, entry.1 = .atom name ∧ change = fun opts => (name, v) :: opts := by
  obtain ⟨name, named, rest⟩ := bind_ok changes
  split at rest
  · obtain ⟨v, _, same⟩ := bind_ok rest
    cases same
    exact .inr ⟨name, v, atomToString_ok named, rfl⟩
  · cases rest
    exact .inl rfl

theorem readOptionChange_sets {entry : Term × Term} {change : RockerReadOptions → RockerReadOptions}
    (changes : readOptionChange entry = .ok change) : change = id ∨
      (∃ bound, entry.1 = .atom "iterate_upper_bound" ∧
        change = fun opts => { opts with iterateUpperBound := some bound }) ∨
      ∃ bound, entry.1 = .atom "iterate_lower_bound" ∧
        change = fun opts => { opts with iterateLowerBound := some bound } := by
  obtain ⟨name, named, rest⟩ := bind_ok changes
  split at rest
  · obtain ⟨bound, _, same⟩ := bind_ok rest
    cases same
    exact .inr (.inl ⟨bound, atomToString_ok named, rfl⟩)
  · obtain ⟨bound, _, same⟩ := bind_ok rest
    cases same
    exact .inr (.inr ⟨bound, atomToString_ok named, rfl⟩)
  · cases rest
    exact .inl rfl

theorem optionChanges : Changes SameOptions OtherKey .badarg optionChange where
  same := ⟨fun _ _ => rfl, fun same name => (same name).symm,
    fun first second name => (first name).trans (second name)⟩
  fails := optionChange_fails
  congr := by
    intro entry change changes opts opts' same name
    rcases optionChange_sets changes with rfl | ⟨other, v, _, rfl⟩
    · exact same name
    · simp only [List.lookup_cons, same name]
  commute := by
    intro entry entry' change change' away changes changes' opts name
    rcases optionChange_sets changes with rfl | ⟨first, v, key, rfl⟩
    · rfl
    rcases optionChange_sets changes' with rfl | ⟨second, v', key', rfl⟩
    · rfl
    have apart : first ≠ second := by
      rintro rfl
      exact away (key.trans key'.symm)
    grind

theorem readOptionChanges : Changes Eq OtherKey .badarg readOptionChange where
  same := eq_equivalence
  fails := readOptionChange_fails
  congr := fun _ _ _ _ _ same => congrArg _ same
  commute := by
    intro entry entry' change change' away changes changes' opts
    rcases readOptionChange_sets changes with rfl | ⟨bound, key, rfl⟩ | ⟨bound, key, rfl⟩ <;>
      rcases readOptionChange_sets changes' with rfl | ⟨bound', key', rfl⟩ | ⟨bound', key', rfl⟩
    all_goals first | rfl | exact absurd (key.trans key'.symm) away

theorem settings_same {opts opts' : RockerOptions} (same : SameOptions opts opts')
    (names : List (String × OptionKind)) : settings opts names = settings opts' names := by
  induction names with
  | nil => rfl
  | cons entry names ih =>
    obtain ⟨name, kind⟩ := entry
    rw [settings, settings, same name, ih]

theorem distinct_keys {pairs : List (Term × Term)} (distinct : (pairs.map Prod.fst).Nodup) :
    pairs.Pairwise OtherKey := by
  rw [List.Nodup, List.pairwise_map] at distinct
  exact distinct

theorem decodeOptions_perm {pairs pairs' : List (Term × Term)} (perm : pairs.Perm pairs')
    (distinct : (pairs.map Prod.fst).Nodup) :
    Alike SameOptions (decodeOptions (.map pairs)) (decodeOptions (.map pairs')) := by
  have alike := optionChanges.fold_perm (fun _ _ => Ne.symm) perm (distinct_keys distinct)
    defaultOptions
  rw [← fold_eq decodeOption decodeOption_changes, ← fold_eq decodeOption decodeOption_changes]
    at alike
  exact alike

theorem decodeReadOptions_perm {pairs pairs' : List (Term × Term)} (perm : pairs.Perm pairs')
    (distinct : (pairs.map Prod.fst).Nodup) :
    decodeReadOptions (.map pairs) = decodeReadOptions (.map pairs') := by
  have alike := readOptionChanges.fold_perm (fun _ _ => Ne.symm) perm (distinct_keys distinct)
    ⟨none, none⟩
  rw [← fold_eq decodeReadOption decodeReadOption_changes,
    ← fold_eq decodeReadOption decodeReadOption_changes] at alike
  rw [decodeReadOptions, decodeReadOptions]
  generalize pairs.foldlM decodeReadOption ⟨none, none⟩ = first at alike ⊢
  generalize pairs'.foldlM decodeReadOption ⟨none, none⟩ = second at alike ⊢
  cases alike with
  | ok same => rw [same]
  | error stop => rfl

/-- The order in which a map of options is iterated decides neither what is handed to the store,
nor the reply of a call that is given the map, nor what that call does. -/
theorem options_unordered {pairs pairs' : List (Term × Term)} (perm : pairs.Perm pairs')
    (distinct : (pairs.map Prod.fst).Nodup) (rt : Rustler) {R : RocksDb} (w : World R) :
    (decodeOptions (.map pairs) >>= fun opts => settings opts optionKinds) =
        (decodeOptions (.map pairs') >>= fun opts => settings opts optionKinds) ∧
      (∀ cfName, w.step rt (.createCf cfName (.map pairs)) =
        w.step rt (.createCf cfName (.map pairs'))) ∧
      ∀ mode first last, w.step rt (.iteratorRange mode first last (.map pairs)) =
        w.step rt (.iteratorRange mode first last (.map pairs')) := by
  have alike := decodeOptions_perm perm distinct
  refine ⟨?_, ?_, ?_⟩
  · generalize decodeOptions (.map pairs) = first at alike ⊢
    generalize decodeOptions (.map pairs') = second at alike ⊢
    cases alike with
    | ok same => exact settings_same same optionKinds
    | error stop => rfl
  · intro cfName
    simp only [World.step, World.createCf]
    generalize decodeOptions (.map pairs) = first at alike ⊢
    generalize decodeOptions (.map pairs') = second at alike ⊢
    cases alike with
    | ok same => simp only [World.decoded, settings_same same]
    | error stop => rfl
  · intro mode first last
    simp only [World.step, World.iteratorRange, decodeReadOptions_perm perm distinct]

/-- An option that is not there, and one that is. -/
theorem options_unordered_two :
    Memory.world.step Memory.rustler (.createCf (.binary [97])
        (.map [(.atom "nope", .nil), (.atom "set_max_open_files", .integer 5)])) =
      Memory.world.step Memory.rustler (.createCf (.binary [97])
        (.map [(.atom "set_max_open_files", .integer 5), (.atom "nope", .nil)])) :=
  (options_unordered (.swap _ _ _) (by simp) Memory.rustler Memory.world).2.1 (.binary [97])

end ExRocket
