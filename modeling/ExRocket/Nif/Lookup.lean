import ExRocket.Nif.Keys

/-! Reads of several keys. A single read takes the external form of a key that is no
binary; a read of several keys turns such a key down. -/
namespace ExRocket

open Rust

/-- A read of several keys finds for each what a read of it finds. -/
def RocksDb.MultiGetEach (R : RocksDb) : Prop :=
  ∀ s keys, R.multiGet s keys = keys.map fun (cf, key) => R.get s cf key

def IsBinary (t : Term) : Prop := ∃ bytes, t = .binary bytes

variable {rt : Rustler} {R : RocksDb}

theorem binaries_iff {keys : List Term} :
    (∃ bs, List.Forall₂ (fun t (b : Bytes) => t.decodeBinary = .ok b) keys bs) ↔
      ∀ k ∈ keys, IsBinary k := by
  rw [forall₂_accepts_iff]
  simp only [decodeBinary_ok_iff, IsBinary]

namespace World

variable {w : World R}

theorem get_healthy (rt : Rustler) (healthy : w.handle.poisoned = false) (key : Term) :
    w.get rt key = (.term (found (R.get w.handle.db none (key.lazyBinary rt))), w) :=
  read_term healthy rfl

theorem getCf_healthy (rt : Rustler) (healthy : w.handle.poisoned = false) {cfName : Term}
    {name : Str} {cf : R.Cf} (named : cfName.decodeString = .ok name)
    (known : R.cfHandle w.handle.db name = some cf) (key : Term) :
    w.getCf rt cfName key =
      (.term (found (R.get w.handle.db (some cf) (key.lazyBinary rt))), w) := by
  rw [getCf, decoded_ok w _ named]
  apply read_term healthy
  simp only [known]
  rfl

theorem multiGet_ok (healthy : w.handle.poisoned = false) {keys : Term} {bs : List Bytes}
    (decodes : decodeKeys rt Term.decodeBinary keys = .ok bs) :
    w.multiGet rt keys =
      (.term (foundAll (R.multiGet w.handle.db (bs.map fun b => (none, b)))), w) := by
  apply read_term healthy
  simp only [decodes]
  rfl

theorem multiGet_error (healthy : w.handle.poisoned = false) {keys : Term} {stop : Stop}
    (fails : decodeKeys rt Term.decodeBinary keys = .error stop) :
    w.multiGet rt keys = (stop.reply, w) := by
  apply read_error healthy
  simp only [fails]
  rfl

theorem multiGetCf_ok (healthy : w.handle.poisoned = false) {keys : Term}
    {pairs : List (Option R.Cf × Bytes)}
    (decodes : decodeKeys rt (familyKey w.handle.db) keys = .ok pairs) :
    w.multiGetCf rt keys = (.term (foundAll (R.multiGet w.handle.db pairs)), w) := by
  apply read_term healthy
  simp only [decodes]
  rfl

theorem multiGetCf_error (healthy : w.handle.poisoned = false) {keys : Term} {stop : Stop}
    (fails : decodeKeys rt (familyKey w.handle.db) keys = .error stop) :
    w.multiGetCf rt keys = (stop.reply, w) := by
  apply read_error healthy
  simp only [fails]
  rfl

/-- The reply to a read of several keys is the list of the replies to single reads. -/
def Gathers (reply : Reply) (singles : List Reply) : Prop :=
  ∃ values, singles = values.map .term ∧ reply = .term (.tuple [.ok, .ofList values])

theorem gathers_stop (stop : Stop) (singles : List Reply) : ¬ Gathers stop.reply singles := by
  rintro ⟨values, _, same⟩
  cases stop <;> cases same

theorem gathers_found {ι κ : Type} {items : List ι} {vs : List κ} {reads : ι → κ → Prop}
    {single : ι → Reply} {value : κ → Except Str (Option Bytes)}
    (each : List.Forall₂ reads items vs)
    (finds : ∀ i v, reads i v → single i = .term (found (value v))) :
    Gathers (.term (foundAll (vs.map value))) (items.map single) := by
  refine ⟨vs.map fun v => found (value v), ?_, ?_⟩
  · induction each with
    | nil => rfl
    | @cons i v _ _ head _ ih =>
      rw [List.map_cons, List.map_cons, List.map_cons, ih, finds i v head]
  · rw [foundAll, List.map_map]
    rfl

theorem multiGet_gathers_iff (eachGet : R.MultiGetEach) (healthy : w.handle.poisoned = false)
    (keys : List Term) :
    Gathers (w.multiGet rt (.ofList keys)).1 (keys.map fun k => (w.get rt k).1) ↔
      ∀ k ∈ keys, IsBinary k := by
  rw [← binaries_iff]
  constructor
  · intro gathers
    cases decodes : decodeKeys rt Term.decodeBinary (.ofList keys) with
    | error stop =>
      rw [multiGet_error healthy decodes] at gathers
      exact absurd gathers (gathers_stop stop _)
    | ok bs => exact ⟨bs, decodeKeys_ofList_ok_iff.mp decodes⟩
  · rintro ⟨bs, each⟩
    rw [multiGet_ok healthy (decodeKeys_ofList_ok_iff.mpr each), eachGet, List.map_map]
    apply gathers_found each
    intro k b binary
    rw [decodeBinary_ok_iff.mp binary, get_healthy rt healthy]
    rfl

def NamesFamily (db : R.Store) (cfName : Term) : Prop :=
  ∃ name cf, cfName.decodeString = .ok name ∧ R.cfHandle db name = some cf

def pair (p : Term × Term) : Term := .tuple [p.1, p.2]

theorem familyKey_pair_ok_iff {db : R.Store} {p : Term × Term} {name : Str} {cf : R.Cf}
    (named : p.1.decodeString = .ok name) (known : R.cfHandle db name = some cf)
    {key : Option R.Cf × Bytes} :
    familyKey db (pair p) = .ok key ↔ ∃ b, p.2 = .binary b ∧ key = (some cf, b) := by
  have looks : familyKey db (pair p) =
      (p.2.decodeBinary >>= fun b => (pure (some cf, b) : NifResult (Option R.Cf × Bytes))) := by
    rw [pair, familyKey_pair, named]
    simp only [bind, Except.bind, known, unwrap]
    rfl
  simp only [looks]
  constructor
  · intro decodes
    obtain ⟨b, binary, same⟩ := bind_ok decodes
    cases same
    exact ⟨b, decodeBinary_ok_iff.mp binary, rfl⟩
  · rintro ⟨b, binary, rfl⟩
    simp only [binary]
    rfl

theorem pairs_iff {db : R.Store} {pairs : List (Term × Term)}
    (known : ∀ p ∈ pairs, NamesFamily db p.1) :
    (∃ keys : List (Option R.Cf × Bytes),
        List.Forall₂ (fun t key => familyKey db t = .ok key) (pairs.map pair) keys) ↔
      ∀ p ∈ pairs, IsBinary p.2 := by
  rw [forall₂_accepts_iff, List.forall_mem_map]
  constructor
  · intro accepted p member
    obtain ⟨name, cf, named, family⟩ := known p member
    obtain ⟨key, decodes⟩ := accepted p member
    obtain ⟨b, binary, _⟩ := (familyKey_pair_ok_iff named family).mp decodes
    exact ⟨b, binary⟩
  · intro binaries p member
    obtain ⟨name, cf, named, family⟩ := known p member
    obtain ⟨b, binary⟩ := binaries p member
    exact ⟨(some cf, b), (familyKey_pair_ok_iff named family).mpr ⟨b, binary, rfl⟩⟩

theorem multiGetCf_gathers_iff (eachGet : R.MultiGetEach) (healthy : w.handle.poisoned = false)
    {pairs : List (Term × Term)} (known : ∀ p ∈ pairs, NamesFamily w.handle.db p.1) :
    Gathers (w.multiGetCf rt (.ofList (pairs.map pair))).1
        (pairs.map fun p => (w.getCf rt p.1 p.2).1) ↔
      ∀ p ∈ pairs, IsBinary p.2 := by
  rw [← pairs_iff known]
  constructor
  · intro gathers
    cases decodes : decodeKeys rt (familyKey w.handle.db) (.ofList (pairs.map pair)) with
    | error stop =>
      rw [multiGetCf_error healthy decodes] at gathers
      exact absurd gathers (gathers_stop stop _)
    | ok keys => exact ⟨keys, decodeKeys_ofList_ok_iff.mp decodes⟩
  · rintro ⟨keys, each⟩
    rw [multiGetCf_ok healthy (decodeKeys_ofList_ok_iff.mpr each), eachGet]
    have each' : List.Forall₂ (fun p key => p ∈ pairs ∧ familyKey w.handle.db (pair p) = .ok key)
        pairs keys :=
      (List.forall₂_and_left _ _).mpr ⟨fun _ member => member, List.forall₂_map_left_iff.mp each⟩
    apply gathers_found each'
    rintro p key ⟨member, decodes⟩
    obtain ⟨name, cf, named, family⟩ := known p member
    obtain ⟨b, binary, rfl⟩ := (familyKey_pair_ok_iff named family).mp decodes
    rw [binary, getCf_healthy rt healthy named family]
    rfl

theorem multi_reads_agree_iff (eachGet : R.MultiGetEach) (healthy : w.handle.poisoned = false) :
    (∀ keys : List Term,
      Gathers (w.multiGet rt (.ofList keys)).1 (keys.map fun k => (w.get rt k).1) ↔
        ∀ k ∈ keys, IsBinary k) ∧
    ∀ pairs : List (Term × Term), (∀ p ∈ pairs, NamesFamily w.handle.db p.1) →
      (Gathers (w.multiGetCf rt (.ofList (pairs.map pair))).1
          (pairs.map fun p => (w.getCf rt p.1 p.2).1) ↔
        ∀ p ∈ pairs, IsBinary p.2) :=
  ⟨multiGet_gathers_iff eachGet healthy,
    fun _ known => multiGetCf_gathers_iff eachGet healthy known⟩

/-- A key that is stored and one that is not, and a key of a family. -/
theorem multi_reads_agree_iff_stored :
    Gathers (Memory.twoFamilies.multiGet Memory.rustler
        (.ofList [.binary [97], .binary [98]])).1
      [.term (.tuple [.ok, .binary [49]]), .term (.atom "undefined")] ∧
    Gathers (Memory.twoFamilies.multiGetCf Memory.rustler
        (.ofList [pair (.binary [120], .binary [107])])).1
      [.term (.tuple [.ok, .binary [50]])] := by
  have agree := @multi_reads_agree_iff Memory.rustler Memory.rocksDb Memory.twoFamilies
    (fun _ _ => rfl) rfl
  obtain ⟨plain, families⟩ := agree
  constructor
  · exact (plain [.binary [97], .binary [98]]).mpr (by simp [IsBinary])
  · refine (families [(.binary [120], .binary [107])] ?_).mpr (by simp [IsBinary])
    intro p member
    rw [List.mem_singleton.mp member]
    exact ⟨['x'], ['x'], rfl, rfl⟩

/- The empty list is a key that put and get take, and multi_get does not. -/
theorem multiGet_refuses_key :
    (Memory.world.run Memory.rustler [.put .nil (.binary [49]), .get .nil,
      .multiGet (.ofList [.nil])]).1 =
      [.term .ok, .term (.tuple [.ok, .binary [49]]), .badarg] ∧
    ¬ ∀ (w : World Memory.rocksDb), w.handle.poisoned = false → ∀ keys : List Term,
      Gathers (w.multiGet Memory.rustler (.ofList keys)).1
        (keys.map fun k => (w.get Memory.rustler k).1) := by
  refine ⟨rfl, ?_⟩
  intro agrees
  obtain ⟨values, _, same⟩ := agrees Memory.world rfl [.nil]
  cases same

end World
end ExRocket
