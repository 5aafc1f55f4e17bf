import ExRocket.Nif.BatchPanics
import ExRocket.Nif.BatchSkips

/-! Key lists. The loop over a list decodes its elements one by one and stops at the first
that is refused or panics; at the tail of an improper list the list iterator decides. -/
namespace ExRocket

open Rust

variable {rt : Rustler} {α : Type} {decode : Term → NifResult α}

theorem forall₂_accepts_iff {xs : List Term} :
    (∃ vs : List α, List.Forall₂ (fun t v => decode t = .ok v) xs vs) ↔
      ∀ t ∈ xs, ∃ v, decode t = .ok v := by
  induction xs with
  | nil => simp
  | cons t ts ih =>
    rw [List.forall_mem_cons, ← ih]
    constructor
    · rintro ⟨_, _ | ⟨head, tail⟩⟩
      exact ⟨⟨_, head⟩, _, tail⟩
    · rintro ⟨⟨v, head⟩, vs, tail⟩
      exact ⟨v :: vs, .cons head tail⟩

theorem mapM_accepts_iff {xs : List Term} :
    (∃ vs, xs.mapM decode = .ok vs) ↔ ∀ t ∈ xs, ∃ v, decode t = .ok v := by
  rw [← forall₂_accepts_iff]
  simp only [mapM_ok_iff]

theorem mapM_error_iff {xs : List Term} {stop : Stop} :
    xs.mapM decode = .error stop ↔ ∃ before t after, xs = before ++ t :: after ∧
      (∀ s ∈ before, ∃ v, decode s = .ok v) ∧ decode t = .error stop := by
  induction xs with
  | nil => simp [pure, Except.pure]
  | cons t ts ih =>
    have rest : ∀ v, (ts.mapM decode >>= fun vs => (pure (v :: vs) : NifResult (List α))) =
        .error stop ↔ ts.mapM decode = .error stop := by
      intro v
      simp [bind_error_iff, pure, Except.pure]
    rw [List.mapM_cons, bind_error_iff]
    simp only [rest, ih]
    constructor
    · rintro (fails | ⟨v, decodes, before, u, after, rfl, accepted, fails⟩)
      · exact ⟨[], t, ts, rfl, by simp, fails⟩
      · refine ⟨t :: before, u, after, rfl, ?_, fails⟩
        intro s member
        rcases List.mem_cons.mp member with rfl | earlier
        · exact ⟨v, decodes⟩
        · exact accepted s earlier
    · rintro ⟨before, u, after, same, accepted, fails⟩
      cases before with
      | nil =>
        cases same
        exact .inl fails
      | cons s before =>
        cases same
        obtain ⟨v, decodes⟩ := accepted t List.mem_cons_self
        exact .inr ⟨v, decodes, before, u, after, rfl,
          fun s member => accepted s (List.mem_cons_of_mem t member), fails⟩

/-- What the iterator does after the last element. -/
def listEnd (rt : Rustler) : Term → NifResult Unit
  | .cons _ tail => listEnd rt tail
  | .nil => return ()
  | _ => rt.improperTail

@[simp] theorem listEnd_ofList (ts : List Term) : listEnd rt (.ofList ts) = .ok () := by
  induction ts with
  | nil => rfl
  | cons t ts ih => rw [Term.ofList, listEnd, ih]

theorem forEach_push (keys : Term) (acc : List α) :
    keys.forEach rt (fun acc elem => return acc ++ [← decode elem]) acc =
      ((elements keys).mapM decode >>= fun vs =>
        listEnd rt keys >>= fun _ => pure (acc ++ vs)) := by
  induction keys using elements.induct generalizing acc with
  | case1 head tail ih =>
    simp only [Term.forEach, elements, List.mapM_cons, listEnd, bind_assoc, pure_bind, ih,
      List.append_assoc, List.singleton_append]
  | case2 keys last =>
    cases keys with
    | cons head tail => exact absurd rfl (last head tail)
    | nil => simp [Term.forEach, elements, listEnd]
    | _ =>
      simp only [elements, List.mapM_nil, listEnd, pure_bind, List.append_nil]
      rw [Term.forEach]
      all_goals
        intros
        contradiction

def IsList (t : Term) : Prop := ∃ iter, t.decodeList = .ok iter

theorem isList_ofList (ts : List Term) : IsList (.ofList ts) := ⟨_, decodeList_ofList ts⟩

theorem decodeKeys_eq {keys : Term} (list : IsList keys) :
    decodeKeys rt decode keys =
      ((elements keys).mapM decode >>= fun vs => listEnd rt keys >>= fun _ => pure vs) := by
  obtain ⟨iter, decodes⟩ := list
  have same := decodeList_ok decodes
  subst same
  simp only [decodeKeys, decodes, bind, Except.bind]
  exact forEach_push iter []

theorem decodeKeys_ok_iff {keys : Term} {vs : List α} :
    decodeKeys rt decode keys = .ok vs ↔ IsList keys ∧
      List.Forall₂ (fun t v => decode t = .ok v) (elements keys) vs ∧
        listEnd rt keys = .ok () := by
  constructor
  · intro decodes
    obtain ⟨iter, list, _⟩ := bind_ok decodes
    have list' : IsList keys := ⟨iter, list⟩
    rw [decodeKeys_eq list'] at decodes
    obtain ⟨vs', each, rest⟩ := bind_ok decodes
    obtain ⟨⟨⟩, last, same⟩ := bind_ok rest
    cases same
    exact ⟨list', mapM_ok_iff.mp each, last⟩
  · rintro ⟨list, each, last⟩
    rw [decodeKeys_eq list, mapM_ok_iff.mpr each, last]
    rfl

theorem decodeKeys_ofList_ok_iff {keys : List Term} {vs : List α} :
    decodeKeys rt decode (.ofList keys) = .ok vs ↔
      List.Forall₂ (fun t v => decode t = .ok v) keys vs := by
  rw [decodeKeys_ok_iff, elements_ofList]
  simp [isList_ofList]

/-- An element panics after elements that are all accepted, or the tail after all of them. -/
theorem decodeKeys_panic_iff {keys : Term} :
    decodeKeys rt decode keys = .error .panic ↔ IsList keys ∧
      ((∃ before t after, elements keys = before ++ t :: after ∧
          (∀ s ∈ before, ∃ v, decode s = .ok v) ∧ decode t = .error .panic) ∨
        (∀ s ∈ elements keys, ∃ v, decode s = .ok v) ∧ listEnd rt keys = .error .panic) := by
  cases decoded : keys.decodeList with
  | error stop =>
    have notList : ¬ IsList keys := by
      rintro ⟨iter, list⟩
      rw [decoded] at list
      cases list
    have kind : stop = .badarg := by
      cases keys <;> cases decoded <;> rfl
    subst kind
    simp [decodeKeys, decoded, notList, bind, Except.bind]
  | ok iter =>
    have list : IsList keys := ⟨iter, decoded⟩
    have last : ∀ vs : List α, (listEnd rt keys >>= fun _ => (pure vs : NifResult (List α))) =
        .error .panic ↔ listEnd rt keys = .error .panic := by
      intro vs
      simp [bind_error_iff, pure, Except.pure]
    rw [decodeKeys_eq list, bind_error_iff, mapM_error_iff, ← mapM_accepts_iff]
    simp only [last, list, true_and, exists_and_right]

section FamilyKey

variable {R : RocksDb} {db : R.Store}

theorem decodeBinary_ok_iff {t : Term} {bytes : Bytes} :
    t.decodeBinary = .ok bytes ↔ t = .binary bytes := by
  cases t <;> simp [Term.decodeBinary, pure, Except.pure, throw, throwThe, MonadExceptOf.throw]

def KeyAccepted (db : R.Store) (t : Term) : Prop :=
  ∃ cfName b rest name, t = .tuple (cfName :: .binary b :: rest) ∧
    cfName.decodeString = .ok name ∧ (R.cfHandle db name).isSome

/-- A missing component after one that is well typed, or an unknown family. -/
def KeyPanics (db : R.Store) (t : Term) : Prop :=
  t = .tuple [] ∨ ∃ cfName rest name, t = .tuple (cfName :: rest) ∧
    cfName.decodeString = .ok name ∧
    (rest = [] ∨ ∃ b rest', rest = .binary b :: rest' ∧ R.cfHandle db name = none)

theorem familyKey_short (cfName : Term) :
    familyKey db (.tuple [cfName]) = (cfName.decodeString >>= fun _ => throw .panic) := rfl

theorem familyKey_pair (cfName key : Term) (rest : List Term) :
    familyKey db (.tuple (cfName :: key :: rest)) =
      (cfName.decodeString >>= fun name => key.decodeBinary >>= fun b =>
        unwrap (R.cfHandle db name) >>= fun cf => pure (some cf, b)) := rfl

theorem familyKey_ok_iff {t : Term} :
    (∃ key, familyKey db t = .ok key) ↔ KeyAccepted db t := by
  constructor
  · rintro ⟨key, decodes⟩
    cases t with
    | tuple xs =>
      match xs with
      | [] => cases decodes
      | [cfName] =>
        rw [familyKey_short] at decodes
        obtain ⟨_, _, impossible⟩ := bind_ok decodes
        cases impossible
      | cfName :: k :: rest =>
        rw [familyKey_pair] at decodes
        obtain ⟨name, named, decodes⟩ := bind_ok decodes
        obtain ⟨b, binary, decodes⟩ := bind_ok decodes
        obtain ⟨cf, known, _⟩ := bind_ok decodes
        rw [decodeBinary_ok_iff] at binary
        subst binary
        exact ⟨cfName, b, rest, name, rfl, named, by rw [unwrap_ok known]; rfl⟩
    | _ => cases decodes
  · rintro ⟨cfName, b, rest, name, rfl, named, known⟩
    obtain ⟨cf, family⟩ := Option.isSome_iff_exists.mp known
    refine ⟨(some cf, b), ?_⟩
    rw [familyKey_pair, named]
    simp [bind, Except.bind, Term.decodeBinary, family, unwrap, pure, Except.pure]

theorem familyKey_panic_iff {t : Term} : familyKey db t = .error .panic ↔ KeyPanics db t := by
  cases t with
  | tuple xs =>
    match xs with
    | [] => exact iff_of_true rfl (.inl rfl)
    | [cfName] =>
      rw [familyKey_short, bind_error_iff]
      simp only [KeyPanics, Term.tuple.injEq, List.cons_ne_nil, List.cons.injEq, false_or]
      constructor
      · rintro (unread | ⟨name, named, _⟩)
        · cases decodeString_error unread
        · exact ⟨cfName, [], name, ⟨rfl, rfl⟩, named, .inl rfl⟩
      · rintro ⟨_, _, name, ⟨rfl, rfl⟩, named, _⟩
        exact .inr ⟨name, named, rfl⟩
    | cfName :: k :: rest =>
      rw [familyKey_pair, bind_error_iff]
      simp only [KeyPanics, Term.tuple.injEq, List.cons_ne_nil, List.cons.injEq, false_or]
      constructor
      · rintro (unread | ⟨name, named, fails⟩)
        · cases decodeString_error unread
        · rcases bind_error_iff.mp fails with refused | ⟨b, binary, fails⟩
          · cases decodeBinary_error refused
          · rcases bind_error_iff.mp fails with unknown | ⟨_, _, impossible⟩
            · rw [decodeBinary_ok_iff] at binary
              subst binary
              exact ⟨cfName, _, name, ⟨rfl, rfl⟩, named,
                .inr ⟨b, rest, rfl, (unwrap_error_iff.mp unknown).2⟩⟩
            · cases impossible
      · rintro ⟨_, _, name, ⟨rfl, rfl⟩, named, missing | ⟨b, rest', same, unknown⟩⟩
        · cases missing
        · cases same
          refine .inr ⟨name, named, bind_error_iff.mpr (.inr ⟨b, rfl, ?_⟩)⟩
          exact bind_error_iff.mpr (.inl (unwrap_error_iff.mpr ⟨rfl, unknown⟩))
  | _ => exact iff_of_false nofun (by simp [KeyPanics])

end FamilyKey

end ExRocket
