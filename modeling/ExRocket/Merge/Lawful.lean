import ExRocket.Library.Compaction
import ExRocket.Merge.BitsetGrouping
import ExRocket.Merge.Grouping

/-! The operands that an operator may merge at any time. All of a counter's are; those of the
operator for external terms are just the texts, and those of the bitset just the clears. -/
namespace ExRocket

open Regroup Rust LastWriter

/-- The operators as the store calls them. Where one panics there is no value. -/
def erlangOperator (c : Eetf) (key : Bytes) : Operator Bytes := fun e ops =>
  (erlangMerge c key e ops).toOption.join

def bitsetOperator (key : Bytes) : Operator Bytes := fun e ops =>
  (bitsetMerge key e ops).toOption.join

theorem counter_lawful (key : Bytes) : LawfulOn (counterMerge key) fun _ => True :=
  stringSumming.sumsOn.lawful

section Bitset

variable {key : Bytes}

theorem bitsetOperator_eq (key : Bytes) (e : Option Bytes) (ops : List Bytes) :
    ∃ final, bitsetOperator key e ops = some final ∧
      final.length = extents bitReach (ops.map readAction) (e.getD []).length ∧
      ∀ n, bitAt final n = cells false n (ops.map readAction) (bitAt (e.getD []) n) := by
  obtain ⟨final, returns, length, bits⟩ := bitsetMerge_eq key e ops
  exact ⟨final, by rw [bitsetOperator, returns]; rfl, length, bits⟩

theorem bitAt_image (n : Nat) (v : Bool) (m : Nat) :
    bitAt (image [.write n v, .write n v]) m = if n = m then v else false := by
  have cell : cells false m [.write n v, .write n v] false = if n = m then v else false := by
    by_cases same : n = m <;> simp [cells, Action.cell, same]
  rw [image, bitAt_ofBits, cell]
  intro k hit
  by_cases same : n = k
  · subst same
    cases v with
    | true => exact Nat.lt_of_lt_of_le (Nat.lt_succ_self _) (Nat.le_max_right _ _)
    | false => simp [cells, Action.cell] at hit
  · simp [cells, Action.cell, same] at hit

/-- An operand about a position has a sign in it, a byte of several bits. -/
theorem write_signed {o : Bytes} {n : Nat} {v : Bool} (reads : readAction o = .write n v) :
    (43 : UInt8) ∈ o ∨ (45 : UInt8) ∈ o := by
  unfold readAction at reads
  split at reads
  · rename_i text utf8
    have bytes := intoBytes_fromUtf8 utf8
    have inside : ∀ ch rest, trim text = ch :: rest → ch ∈ text := by
      intro ch rest trimmed
      have here : ch ∈ trim text := by simp [trimmed]
      exact (List.dropWhile_sublist _).mem ((List.rdropWhile_prefix _ _).sublist.mem here)
    have coded : ∀ ch ∈ text, ∀ b ∈ String.utf8EncodeChar ch, b ∈ o := by
      intro ch member b code
      rw [← bytes]
      exact List.mem_flatMap.mpr ⟨ch, member, code⟩
    split at reads
    · cases reads
    · exact .inl (coded '+' (inside _ _ ‹_›) 43 (by decide))
    · exact .inr (coded '-' (inside _ _ ‹_›) 45 (by decide))
    · cases reads
  · cases reads

theorem signed_bits {o : Bytes} (signed : (43 : UInt8) ∈ o ∨ (45 : UInt8) ∈ o) :
    ∃ i, bitAt o (8 * i + 0) = true ∧ bitAt o (8 * i + 3) = true := by
  rcases signed with member | member
  all_goals
    obtain ⟨i, inside, byte⟩ := List.getElem_of_mem member
    refine ⟨i, ?_, ?_⟩
    all_goals
      rw [bitAt_byte inside (by decide), byte]
      decide

theorem image_reads (n : Nat) (v : Bool) (m : Nat) (w : Bool) :
    readAction (image [.write n v, .write n v]) ≠ .write m w := by
  intro reads
  obtain ⟨i, first, fourth⟩ := signed_bits (write_signed reads)
  rw [bitAt_image] at first fourth
  split at first
  · split at fourth
    · omega
    · cases fourth
  · cases first

theorem idle_image {act : BitAction} (idle : act = .skip ∨ ∃ n, act = .write n false) :
    readAction (image [act, act]) = .clear := by
  have empty : extents bitReach [act, act] 0 = 0 := by
    rcases idle with rfl | ⟨n, rfl⟩ <;> rfl
  have nothing : image [act, act] = [] := by
    apply List.eq_nil_of_length_eq_zero
    rw [image, ofBits_length, empty]
  rw [nothing]
  rfl

theorem clears_merge {ops : List Bytes} (clears : ∀ op ∈ ops, readAction op = .clear)
    (nonempty : ops ≠ []) (e : Option Bytes) : bitsetOperator key e ops = some [] := by
  obtain ⟨final, returns, length, _⟩ := bitsetOperator_eq key e ops
  have empty : ∀ (ops : List Bytes) (n : Nat), (∀ op ∈ ops, readAction op = .clear) → ops ≠ [] →
      extents bitReach (ops.map readAction) n = 0 := by
    intro ops n clears nonempty
    have member : .clear ∈ ops.map readAction := by
      obtain ⟨op, rest, rfl⟩ := List.exists_cons_of_ne_nil nonempty
      exact List.mem_map.mpr ⟨op, List.mem_cons_self, clears op List.mem_cons_self⟩
    have nothing : sinceClear (ops.map readAction) = [] := by
      rw [sinceClear, List.rtakeWhile_eq_nil_iff]
      intro some
      have last := List.getLast_mem some
      obtain ⟨op, inside, same⟩ := List.mem_map.mp last
      rw [← same, clears op inside]
      simp
    rw [extents_eq, if_pos member, nothing]
    rfl
  rw [returns, List.eq_nil_of_length_eq_zero (length.trans (empty ops _ clears nonempty))]

variable {P : Bytes → Prop}

theorem pairs_act (pairs : PairsOn (bitsetOperator key) P) {op : Bytes} (kind : P op)
    (base : Bytes) :
    extents bitReach [readAction (image [readAction op, readAction op])] base.length =
      extents bitReach [readAction op, readAction op] base.length ∧
    ∀ n, cells false n [readAction (image [readAction op, readAction op])] (bitAt base n) =
      cells false n [readAction op, readAction op] (bitAt base n) := by
  obtain ⟨p, merges, same⟩ := pairs op op kind kind
  rw [bitsetOperator, bitsetMerge_none] at merges
  cases merges
  obtain ⟨final, returns, length, bits⟩ := bitsetOperator_eq key (some base) [image _]
  obtain ⟨final', returns', length', bits'⟩ := bitsetOperator_eq key (some base) [op, op]
  have equal := same (some base)
  rw [returns'] at equal
  have agrees : final = final' := Option.some.inj (returns.symm.trans equal)
  subst agrees
  exact ⟨length.symm.trans length', fun n => (bits n).symm.trans (bits' n)⟩

theorem pairs_clear (pairs : PairsOn (bitsetOperator key) P) {op : Bytes} (kind : P op) :
    readAction op = .clear := by
  have same := pairs_act pairs kind
  cases reads : readAction op with
  | clear => rfl
  | skip =>
    have length := (same [0]).1
    rw [reads, idle_image (.inl rfl)] at length
    cases length
  | write n v =>
    rw [reads] at same
    cases v with
    | false =>
      have length := (same [0]).1
      rw [idle_image (.inr ⟨n, rfl⟩)] at length
      cases length
    | true =>
      have bit := (same []).2 n
      cases again : readAction (image [.write n true, .write n true]) with
      | write m w => exact absurd again (image_reads n true m w)
      | clear | skip =>
        rw [again] at bit
        simp [cells, Action.cell, bitAt_past] at bit

theorem clears_lawful (clears : ∀ op, P op → readAction op = .clear)
    (closed : ∀ op, P op → P []) : LawfulOn (bitsetOperator key) P := by
  have merges : ∀ (e : Option Bytes) (ops : List Bytes), (∀ op ∈ ops, P op) → ops ≠ [] →
      bitsetOperator key e ops = some [] := fun e ops kind nonempty =>
    clears_merge (fun op member => clears op (kind op member)) nonempty e
  have nothing : ∀ ops : List Bytes, (∀ op ∈ ops, P op) → ops ≠ [] → P [] := by
    intro ops kind nonempty
    obtain ⟨op, rest, rfl⟩ := List.exists_cons_of_ne_nil nonempty
    exact closed op (kind op List.mem_cons_self)
  constructor
  · exact fun e ops kind nonempty => ⟨[], merges e ops kind nonempty⟩
  · intro ops v kind nonempty same
    rw [merges none ops kind nonempty] at same
    cases same
    exact nothing ops kind nonempty
  · intro e a b v kind _ some _
    obtain ⟨_, second⟩ := List.forall_mem_append.mp kind
    rw [merges _ b second some, merges e (a ++ b) kind (by simp [some])]
  · intro e a r b p kind nonempty same
    obtain ⟨front, back⟩ := List.forall_mem_append.mp kind
    obtain ⟨first, run⟩ := List.forall_mem_append.mp front
    rw [merges none r run nonempty] at same
    cases same
    have grouped : ∀ op ∈ a ++ [[]] ++ b, P op := by
      simp only [List.forall_mem_append, List.forall_mem_singleton]
      exact ⟨⟨first, nothing r run nonempty⟩, back⟩
    rw [merges e _ grouped (by simp), merges e _ kind (by simp [nonempty])]

/-- It does not matter when operands of a bitset are merged if all of them clear it, and only
then: on any other kind it shows already that an operand is merged with itself, for the vector
that this makes is an operand that sets no bit. -/
theorem bitset_lawful_iff (key : Bytes) (P : Bytes → Prop) :
    (LawfulOn (bitsetOperator key) P ↔
      (∀ op, P op → readAction op = .clear) ∧ ∀ op, P op → P []) ∧
    (PairsOn (bitsetOperator key) P ↔ ∀ op, P op → readAction op = .clear) := by
  constructor
  · constructor
    · intro lawful
      refine ⟨fun op => pairs_clear lawful.pairs, fun op kind => ?_⟩
      have nonempty : [op] ≠ [] := List.cons_ne_nil op []
      have clears : ∀ o ∈ [op], readAction o = .clear :=
        List.forall_mem_singleton.mpr (pairs_clear lawful.pairs kind)
      exact lawful.closed [op] [] (List.forall_mem_singleton.mpr kind) nonempty
        (clears_merge clears nonempty none)
    · rintro ⟨clears, closed⟩
      exact clears_lawful clears closed
  · constructor
    · exact fun pairs op => pairs_clear pairs
    · intro clears op op' kind kind'
      have both : ∀ o ∈ [op, op'], readAction o = .clear := by
        simp [clears op kind, clears op' kind']
      have empty : ∀ o ∈ [([] : Bytes)], readAction o = .clear :=
        List.forall_mem_singleton.mpr rfl
      refine ⟨[], clears_merge both (List.cons_ne_nil _ _) none, fun e => ?_⟩
      rw [clears_merge empty (List.cons_ne_nil _ _), clears_merge both (List.cons_ne_nil _ _)]

end Bitset

section Erlang

variable {c : Eetf} {key : Bytes} {P : Bytes → Prop}

theorem erlangOperator_some {e : Option Bytes} {ops : List Bytes} {out : Bytes}
    (merges : erlangOperator c key e ops = some out) :
    erlangMerge c key e ops = .ok (some out) := by
  rw [erlangOperator] at merges
  cases returns : erlangMerge c key e ops with
  | error p =>
    rw [returns] at merges
    cases merges
  | ok result =>
    rw [returns] at merges
    exact congrArg Except.ok merges

theorem erlangOperator_reads {e : Option Bytes} {ops : List Bytes} {out : Bytes}
    (merges : erlangOperator c key e ops = some out) (writes : Writes c (referenceMerge c e ops)) :
    c.decode out = if decoded c ops = [] then none else referenceMerge c e ops :=
  (erlangMerge_reads (erlangOperator_some merges) writes).2

theorem texts_merge {ops : List Bytes} (foreign : ∀ op ∈ ops, c.decode op = none)
    (e : Option Bytes) : erlangOperator c key e ops = some (stringSum e ops) := by
  have idle : decoded c ops = [] := decoded_nil_iff.mpr foreign
  rw [erlangOperator, erlangMerge_eq, idle]
  exact congrArg some (settled_text (.inl idle))

/-- Operands that are no external terms are added up like those of a counter, whatever there is
under the key, and their sum is no external term. -/
theorem erlang_sums (c : Eetf) (key : Bytes) :
    SumsOn stringSumming (erlangOperator c key) fun op => c.decode op = none where
  same := fun e _ foreign => texts_merge foreign e
  closed := fun v => c.text_not_decoded (i64ToString v)

/-- What operations make of nothing is a term that asks for nothing, and is lost as an operand. -/
theorem pairs_no_operation (pairs : PairsOn (erlangOperator c key) P) {op : Bytes} (kind : P op)
    (made : Writes c (referenceMerge c none [op, op])) {t : EetfTerm}
    (term : c.decode op = some t) :
    Operation.read t = none := by
  cases operation : Operation.read t with
  | none => rfl
  | some o =>
    exfalso
    obtain ⟨p, merges, same⟩ := pairs op op kind kind
    have again := (same none).trans merges
    have makes : c.decode p = some (o.apply c.eq (some (o.apply c.eq none))) := by
      rw [erlangOperator_reads merges made]
      simp [referenceMerge, decoded, term, reference_cons, reference_nil, referenceStep, operation]
    have lost : referenceMerge c none [p] = none := by
      simp [referenceMerge, decoded, makes, reference_cons, reference_nil, referenceStep,
        read_apply]
    have reads := erlangOperator_reads again (by rw [lost]; rintro _ ⟨⟩)
    rw [makes, lost, ite_self] at reads
    cases reads

theorem pairs_foreign (pairs : PairsOn (erlangOperator c key) P) {op : Bytes} (kind : P op)
    (read : ∀ t, c.decode op = some t → c.RoundTrips t)
    (made : Writes c (referenceMerge c none [op, op])) : c.decode op = none := by
  cases term : c.decode op with
  | none => rfl
  | some t =>
    exfalso
    have idle := pairs_no_operation pairs kind made term
    obtain ⟨p, merges, same⟩ := pairs op op kind kind
    have makes : c.decode p = none := by
      rw [erlangOperator_reads merges made]
      simp [referenceMerge, decoded, term, reference_cons, reference_nil, referenceStep, idle]
    have keeps : referenceMerge c (some op) [op, op] = some t := by
      simp [referenceMerge, decoded, term, reference_cons, reference_nil, referenceStep, idle]
    have text : erlangOperator c key (some op) [p] = _ :=
      texts_merge (List.forall_mem_singleton.mpr makes) (some op)
    have reads := erlangOperator_reads ((same (some op)).symm.trans text)
      (writes_some keeps (read t term))
    rw [stringSum_not_decoded, keeps, if_neg (by simp [decoded, term])] at reads
    cases reads

theorem texts_pairs (foreign : ∀ op, P op → c.decode op = none) :
    PairsOn (erlangOperator c key) P := by
  intro op op' kind kind'
  have both : ∀ o ∈ [op, op'], c.decode o = none := by simp [foreign op kind, foreign op' kind']
  have sums := erlang_sums c key
  refine ⟨_, texts_merge both none, fun e => ?_⟩
  exact sums.lawful.sound e [] [op, op'] [] _ (by simpa using both) (List.cons_ne_nil _ _)
    (texts_merge both none)

/-- It does not matter when operands of the operator for external terms are merged if none of
them is one, and only then, as far as the crate writes the terms that it reads and makes: on any
other kind it shows already that an operand is merged with itself. -/
theorem erlang_lawful_iff (c : Eetf) (key : Bytes) {P : Bytes → Prop}
    (read : ∀ op t, P op → c.decode op = some t → c.RoundTrips t)
    (made : ∀ op, P op → Writes c (referenceMerge c none [op, op])) :
    (LawfulOn (erlangOperator c key) P ↔
      (∀ op, P op → c.decode op = none) ∧
        ∀ ops, (∀ op ∈ ops, P op) → ops ≠ [] → P (stringSum none ops)) ∧
    (PairsOn (erlangOperator c key) P ↔ ∀ op, P op → c.decode op = none) := by
  have foreign : PairsOn (erlangOperator c key) P → ∀ op, P op → c.decode op = none :=
    fun pairs op kind => pairs_foreign pairs kind (fun t => read op t kind) (made op kind)
  constructor
  · constructor
    · intro lawful
      have texts := foreign lawful.pairs
      refine ⟨texts, fun ops kind nonempty => ?_⟩
      exact lawful.closed ops _ kind nonempty
        (texts_merge (fun op member => texts op (kind op member)) none)
    · rintro ⟨texts, closed⟩
      refine agrees_lawful (fun e ops => ⟨_, rfl⟩) stringSumming.fullSplits
        stringSumming.partialSound ?_ ?_
      · exact fun e ops kind => texts_merge (fun op member => texts op (kind op member)) e
      · rintro ops v kind nonempty ⟨⟩
        exact closed ops kind nonempty
  · exact ⟨foreign, texts_pairs⟩

theorem erlang_lawful_iff_addition :
    (LawfulOn (erlangOperator Wire.codec []) (· = addThree) ↔
      (∀ op, op = addThree → Wire.codec.decode op = none) ∧
        ∀ ops, (∀ op ∈ ops, op = addThree) → ops ≠ [] → stringSum none ops = addThree) ∧
    (PairsOn (erlangOperator Wire.codec []) (· = addThree) ↔
      ∀ op, op = addThree → Wire.codec.decode op = none) := by
  apply erlang_lawful_iff
  · rintro op t rfl reads
    have term : Wire.codec.decode addThree = some (.tuple [.atom "int_add", .fixInteger 3]) := by
      decide
    rw [term] at reads
    cases reads
    exact ⟨_, rfl, by decide⟩
  · rintro op rfl
    exact writes_some (t := .fixInteger 6) (by decide) ⟨_, rfl, by decide⟩

end Erlang

end ExRocket
