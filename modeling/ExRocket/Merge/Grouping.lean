import ExRocket.Merge.Documented

/-! Grouping the operands of the term operator. Folding a prefix into the base, or a run
into one operand, is compared with the single call over all operands: the two agree
exactly when the reference semantics does not see the difference in grouping. -/
namespace ExRocket

open Rust

variable {c : Eetf} {key : Bytes}

theorem reference_none_iff (eq : EetfTerm → EetfTerm → Bool) {existing : Option EetfTerm}
    {ts : List EetfTerm} :
    reference eq existing ts = none ↔ existing = none ∧ ∀ t ∈ ts, Operation.read t = none := by
  induction ts generalizing existing with
  | nil => simp
  | cons t ts ih =>
    rw [reference_cons, ih, referenceStep]
    cases h : Operation.read t <;> simp [h]

/-- Folding first a and then b, the reference value is the one over a ++ b, except that a
prefix without a decodable operand leaves a decimal text for a base. -/
theorem split_reads {e : Option Bytes} {a b : List Bytes}
    (writesPrefix : Writes c (referenceMerge c e a)) :
    referenceMerge c (some (settled c e a (referenceMerge c e a))) b =
      if decoded c a = [] then referenceMerge c none b else referenceMerge c e (a ++ b) := by
  rw [referenceMerge, Option.bind_some, settled_reads writesPrefix]
  split
  · rfl
  · rw [referenceMerge, referenceMerge, decoded_append, reference_append]

theorem prefix_text {e : Option Bytes} {a b : List Bytes}
    (text : decoded c (a ++ b) = [] ∨ referenceMerge c e (a ++ b) = none) :
    decoded c a = [] ∨ referenceMerge c e a = none := by
  rw [decoded_append, List.append_eq_nil_iff] at text
  rcases text with ⟨idle, _⟩ | absent
  · exact .inl idle
  · rw [referenceMerge, decoded_append, reference_none_iff c.eq] at absent
    obtain ⟨nothing, idle⟩ := absent
    refine .inr ((reference_none_iff c.eq).mpr ⟨nothing, ?_⟩)
    exact fun t member => idle t (List.mem_append_left _ member)

/-- Splitting a call after a does no harm: when external operands are followed by texts
only, there was no term and none of them asks for one; when texts, which replace the base
by a text, are followed by external operands, these do not depend on the base. -/
def SplitHarmless (c : Eetf) (e : Option Bytes) (a b : List Bytes) : Prop :=
  (decoded c a ≠ [] → decoded c b = [] →
    e.bind c.decode = none ∧ ∀ t ∈ decoded c a, Operation.read t = none) ∧
  (decoded c a = [] → decoded c b ≠ [] → referenceMerge c none b = referenceMerge c e b)

theorem splitHarmless_iff {e : Option Bytes} {a b : List Bytes} :
    SplitHarmless c e a b ↔
      (if decoded c b = [] then none
        else if decoded c a = [] then referenceMerge c none b else referenceMerge c e (a ++ b)) =
      if decoded c (a ++ b) = [] then none else referenceMerge c e (a ++ b) := by
  rw [SplitHarmless, ← reference_none_iff c.eq, decoded_append, referenceMerge,
    referenceMerge, referenceMerge, decoded_append, reference_append]
  by_cases idleA : decoded c a = []
  · by_cases idleB : decoded c b = []
    · simp [idleA, idleB]
    · simp [idleA, idleB]
  · by_cases idleB : decoded c b = []
    · simp [idleA, idleB, eq_comm]
    · simp [idleA, idleB]

theorem full_split_iff {e : Option Bytes} {a b : List Bytes} {base split whole : Bytes}
    (first : erlangMerge c key e a = .ok (some base))
    (second : erlangMerge c key (some base) b = .ok (some split))
    (once : erlangMerge c key e (a ++ b) = .ok (some whole))
    (writesFirst : Writes c (referenceMerge c e a))
    (writesSecond : Writes c (referenceMerge c none b))
    (writesOnce : Writes c (referenceMerge c e (a ++ b))) :
    split = whole ↔ SplitHarmless c e a b := by
  obtain ⟨baseIs, _⟩ := erlangMerge_reads first writesFirst
  have final := split_reads (b := b) writesFirst
  rw [← baseIs] at final
  have writesSplit : Writes c (referenceMerge c (some base) b) := by
    rw [final]
    split
    · exact writesSecond
    · exact writesOnce
  obtain ⟨_, readSplit⟩ := erlangMerge_reads second writesSplit
  obtain ⟨_, readWhole⟩ := erlangMerge_reads once writesOnce
  rw [final] at readSplit
  rw [splitHarmless_iff, ← readSplit, ← readWhole]
  constructor
  · exact congrArg c.decode
  · intro same
    cases reads : c.decode whole with
    | some t =>
      rw [reads] at same
      exact erlangMerge_same_term second once writesSplit writesOnce same reads
    | none =>
      -- both results are texts, and so is the base between them
      rw [reads] at same
      obtain ⟨_, textSplit⟩ := erlangMerge_unread second writesSplit same
      obtain ⟨text, textWhole⟩ := erlangMerge_unread once writesOnce reads
      have textBase := settled_text (e := e) (prefix_text text)
      rw [← baseIs] at textBase
      rw [textSplit, textWhole]
      exact Option.some.inj
        (stringSumming.fullSplits e a b base (congrArg some textBase.symm))

/- The external forms of {int_add, 3} and {int_add, 5}. -/
def addThree : Bytes := [131, 104, 2, 100, 0, 7, 105, 110, 116, 95, 97, 100, 100, 97, 3]
def addFive : Bytes := [131, 104, 2, 100, 0, 7, 105, 110, 116, 95, 97, 100, 100, 97, 5]

theorem full_split_iff_two_additions :
    ([131, 97, 8] : Bytes) = [131, 97, 8] ↔
      SplitHarmless Wire.codec none [addThree] [addFive] := by
  have first : erlangMerge Wire.codec [] none [addThree] = .ok (some [131, 97, 3]) := by decide
  apply full_split_iff first
  · decide
  · decide
  · exact writes_some (t := .fixInteger 3) (by decide) ⟨_, rfl, by decide⟩
  · exact writes_some (t := .fixInteger 5) (by decide) ⟨_, rfl, by decide⟩
  · exact writes_some (t := .fixInteger 8) (by decide) ⟨_, rfl, by decide⟩

/- Adding 3 as an external operand and then 5 as a text, to an absent value. -/
theorem full_split_differs :
    Wire.codec.decode addThree = some (.tuple [.atom "int_add", .fixInteger 3]) ∧
    ∃ base split whole,
      erlangMerge Wire.codec [] none [addThree] = .ok (some base) ∧
      erlangMerge Wire.codec [] (some base) [[53]] = .ok (some split) ∧
      erlangMerge Wire.codec [] none ([addThree] ++ [[53]]) = .ok (some whole) ∧
      split ≠ whole :=
  ⟨by decide, [131, 97, 3], [53], [131, 97, 3], by decide, by decide, by decide, by decide⟩

def Decodes (c : Eetf) (bytes : Bytes) : Prop := ∃ t, c.decode bytes = some t

/-- The operand is an operation that the operator recognises. A documented tuple need not be
one: {int_add, 2^40} is not. -/
def Recognised (c : Eetf) (operand : Bytes) : Prop :=
  ∃ t, c.decode operand = some t ∧ (Operation.read t).isSome

theorem recognised_iff {operands : List Bytes} :
    (∃ op ∈ operands, Recognised c op) ↔
      ∃ t ∈ decoded c operands, Operation.read t ≠ none := by
  simp only [Recognised, decoded, List.mem_filterMap, ← Option.isSome_iff_ne_none]
  constructor
  · rintro ⟨op, member, t, decodes, asks⟩
    exact ⟨t, ⟨op, member, decodes⟩, asks⟩
  · rintro ⟨t, ⟨op, member, decodes⟩, asks⟩
    exact ⟨op, member, t, decodes, asks⟩

theorem decoded_ne_nil {operands : List Bytes} (nonempty : operands ≠ [])
    (external : ∀ op ∈ operands, Decodes c op) : decoded c operands ≠ [] := by
  cases operands with
  | nil => exact absurd rfl nonempty
  | cons op ops =>
    intro idle
    obtain ⟨t, decodes⟩ := external op List.mem_cons_self
    have foreign := decoded_nil_iff.mp idle op List.mem_cons_self
    rw [decodes] at foreign
    cases foreign

theorem referenceMerge_none_iff {e : Option Bytes} {ops : List Bytes} :
    referenceMerge c e ops = none ↔
      e.bind c.decode = none ∧ ¬ ∃ op ∈ ops, Recognised c op := by
  rw [referenceMerge, reference_none_iff c.eq, recognised_iff]
  push Not
  exact Iff.rfl

/-- No operation yields a tuple, so no result asks for an operation in its turn. -/
theorem read_apply {eq : EetfTerm → EetfTerm → Bool} (existing : Option EetfTerm)
    (op : Operation) : Operation.read (op.apply eq existing) = none := by
  cases op <;> rfl

theorem reference_plain {eq : EetfTerm → EetfTerm → Bool} {existing : Option EetfTerm}
    {ts : List EetfTerm} (plain : ∀ t ∈ existing, Operation.read t = none) :
    ∀ t ∈ reference eq existing ts, Operation.read t = none := by
  induction ts generalizing existing with
  | nil => exact plain
  | cons u ts ih =>
    rw [reference_cons]
    apply ih
    rw [referenceStep]
    cases Operation.read u with
    | none => exact plain
    | some op =>
      rintro t ⟨⟩
      exact read_apply existing op

theorem reference_idle {eq : EetfTerm → EetfTerm → Bool} {existing : Option EetfTerm}
    {ts : List EetfTerm} (idle : ∀ t ∈ ts, Operation.read t = none) :
    reference eq existing ts = existing := by
  induction ts with
  | nil => rfl
  | cons t ts ih =>
    rw [reference_cons, referenceStep, idle t List.mem_cons_self]
    exact ih fun u member => idle u (List.mem_cons_of_mem t member)

/-- Operands that ask for nothing can be left out. -/
theorem referenceMerge_idle {e : Option Bytes} {a r b : List Bytes}
    (idle : ¬ ∃ op ∈ r, Recognised c op) :
    referenceMerge c e (a ++ r ++ b) = referenceMerge c e (a ++ b) := by
  rw [recognised_iff] at idle
  push Not at idle
  simp only [referenceMerge, decoded_append, reference_append, reference_idle idle]

/-- Losing r does no harm: the operations of b make the same of the value before r as of the
value after it. -/
def RunLostHarmless (c : Eetf) (e : Option Bytes) (a r b : List Bytes) : Prop :=
  let before := reference c.eq (e.bind c.decode) (decoded c a)
  let after := reference c.eq before (decoded c r)
  reference c.eq before (decoded c b) = reference c.eq after (decoded c b)

theorem runLostHarmless_iff {e : Option Bytes} {a r b : List Bytes} :
    RunLostHarmless c e a r b ↔ referenceMerge c e (a ++ b) = referenceMerge c e (a ++ r ++ b) := by
  simp only [RunLostHarmless, referenceMerge, decoded_append, reference_append]

/-- With the run gone there is still an operand in the external format, or no stored term
that would need one to be written again. -/
def TermKept (c : Eetf) (e : Option Bytes) (a r b : List Bytes) : Prop :=
  (∃ op ∈ r, Recognised c op) ∨ decoded c (a ++ b) ≠ [] ∨ e.bind c.decode = none

section PartialMerge

variable {e : Option Bytes} {a r b : List Bytes} {p grouped whole : Bytes}

/-- What a partial merge leaves is no operation: a plain term, or a text where the run asks
for nothing. -/
theorem partial_merge_reads (alone : erlangMerge c key none r = .ok (some p))
    (writesAlone : Writes c (referenceMerge c none r)) (external : decoded c r ≠ []) :
    ¬ Recognised c p ∧ (Decodes c p ↔ ∃ op ∈ r, Recognised c op) := by
  have reads := (erlangMerge_reads alone writesAlone).2
  rw [if_neg external] at reads
  constructor
  · rintro ⟨t, decodes, asks⟩
    rw [reads, referenceMerge, Option.bind_none] at decodes
    have plain : Operation.read t = none := reference_plain (by rintro u ⟨⟩) t decodes
    rw [plain] at asks
    cases asks
  · rw [Decodes, reads, ← Option.isSome_iff_exists, Option.isSome_iff_ne_none, ne_eq,
      referenceMerge_none_iff]
    simp

theorem partial_merge_recognised (asks : ∃ op ∈ r, Recognised c op)
    (alone : erlangMerge c key none r = .ok (some p))
    (regrouped : erlangMerge c key e (a ++ [p] ++ b) = .ok (some grouped))
    (once : erlangMerge c key e (a ++ r ++ b) = .ok (some whole))
    (writesAlone : Writes c (referenceMerge c none r))
    (writesWithout : Writes c (referenceMerge c e (a ++ b)))
    (writesOnce : Writes c (referenceMerge c e (a ++ r ++ b))) :
    grouped = whole ↔ RunLostHarmless c e a r b := by
  have processed : decoded c r ≠ [] := by
    obtain ⟨t, member, _⟩ := recognised_iff.mp asks
    exact List.ne_nil_of_mem member
  obtain ⟨plain, decodes⟩ := partial_merge_reads alone writesAlone processed
  obtain ⟨t, result⟩ := decodes.mpr asks
  have lost : referenceMerge c e (a ++ [p] ++ b) = referenceMerge c e (a ++ b) :=
    referenceMerge_idle (by simpa using plain)
  rw [runLostHarmless_iff]
  rw [← lost] at writesWithout ⊢
  have someGrouped : decoded c (a ++ [p] ++ b) ≠ [] := by simp [decoded, result]
  have someWhole : decoded c (a ++ r ++ b) ≠ [] := by simp [decoded_append, processed]
  obtain ⟨_, readGrouped⟩ := erlangMerge_reads regrouped writesWithout
  obtain ⟨_, readWhole⟩ := erlangMerge_reads once writesOnce
  rw [if_neg someGrouped] at readGrouped
  rw [if_neg someWhole] at readWhole
  constructor
  · intro same
    rw [← readGrouped, ← readWhole, same]
  · intro same
    have present : referenceMerge c e (a ++ r ++ b) ≠ none := by
      rw [ne_eq, referenceMerge_none_iff]
      rintro ⟨_, idle⟩
      obtain ⟨op, member, recognised⟩ := asks
      exact idle ⟨op, by simp [member], recognised⟩
    obtain ⟨final, reads⟩ := Option.ne_none_iff_exists'.mp present
    rw [same, reads] at readGrouped
    rw [reads] at readWhole
    exact erlangMerge_same_term regrouped once writesWithout writesOnce readGrouped readWhole

/-- A run that asks for nothing is replaced by a text, and counts nothing before or after. -/
theorem partial_merge_unrecognised (idle : ¬ ∃ op ∈ r, Recognised c op)
    (processed : decoded c r ≠ [])
    (alone : erlangMerge c key none r = .ok (some p))
    (regrouped : erlangMerge c key e (a ++ [p] ++ b) = .ok (some grouped))
    (once : erlangMerge c key e (a ++ r ++ b) = .ok (some whole))
    (writesOnce : Writes c (referenceMerge c e (a ++ r ++ b))) :
    grouped = whole ↔ decoded c (a ++ b) ≠ [] ∨ e.bind c.decode = none := by
  have nothing : referenceMerge c none r = none := referenceMerge_none_iff.mpr ⟨rfl, idle⟩
  have writesAlone : Writes c (referenceMerge c none r) := by
    rw [nothing]
    rintro t ⟨⟩
  obtain ⟨plain, decodes⟩ := partial_merge_reads alone writesAlone processed
  have text : c.decode p = none := by
    rw [Option.eq_none_iff_forall_ne_some]
    exact fun t reads => idle (decodes.mp ⟨t, reads⟩)
  have printed := (erlangMerge_unread alone writesAlone text).2
  have sums : stringSum e (a ++ [p] ++ b) = stringSum e (a ++ r ++ b) :=
    Option.some.inj (stringSumming.partialSound e a r b p (by rintro rfl; exact processed rfl)
      (congrArg some printed.symm))
  have left : decoded c (a ++ [p] ++ b) = decoded c (a ++ b) := by simp [decoded, text]
  have someWhole : decoded c (a ++ r ++ b) ≠ [] := by simp [decoded_append, processed]
  have kept : referenceMerge c e (a ++ [p] ++ b) = referenceMerge c e (a ++ r ++ b) := by
    rw [referenceMerge_idle (by simpa using plain), referenceMerge_idle idle]
  have groupedIs := Option.some.inj (erlangMerge_ok regrouped)
  have wholeIs := Option.some.inj (erlangMerge_ok once)
  by_cases alive : decoded c (a ++ b) = []
  · -- nothing is processed any more, so a stored term is not written again
    rw [settled_text (.inl (left.trans alive)), sums] at groupedIs
    simp only [alive, ne_eq, not_true_eq_false, false_or]
    have base : referenceMerge c e (a ++ r ++ b) = e.bind c.decode := by
      rw [referenceMerge_idle idle, referenceMerge, alive, reference_nil]
    constructor
    · intro same
      have reads := (erlangMerge_reads once writesOnce).2
      rw [if_neg someWhole, base, ← same, groupedIs, stringSum_not_decoded] at reads
      exact reads.symm
    · intro absent
      rw [groupedIs, wholeIs, settled_text (.inr (base.trans absent))]
  · refine iff_of_true ?_ (.inl alive)
    rw [groupedIs, wholeIs, kept, settled, settled, left, sums, if_neg alive, if_neg someWhole]

/-- The result of a partial merge is a plain term, or a text. As an operand it is skipped, and
the whole run is lost with it. -/
theorem partial_merge_iff (external : ∀ op ∈ r, Decodes c op) (nonempty : r ≠ [])
    (alone : erlangMerge c key none r = .ok (some p))
    (regrouped : erlangMerge c key e (a ++ [p] ++ b) = .ok (some grouped))
    (once : erlangMerge c key e (a ++ r ++ b) = .ok (some whole))
    (writesAlone : Writes c (referenceMerge c none r))
    (writesWithout : Writes c (referenceMerge c e (a ++ b)))
    (writesOnce : Writes c (referenceMerge c e (a ++ r ++ b))) :
    grouped = whole ↔ RunLostHarmless c e a r b ∧ TermKept c e a r b := by
  by_cases asks : ∃ op ∈ r, Recognised c op
  · rw [partial_merge_recognised asks alone regrouped once writesAlone writesWithout writesOnce]
    exact (and_iff_left (.inl asks)).symm
  · rw [partial_merge_unrecognised asks (decoded_ne_nil nonempty external) alone regrouped once
      writesOnce]
    have harmless : RunLostHarmless c e a r b :=
      runLostHarmless_iff.mpr (referenceMerge_idle asks).symm
    rw [TermKept, or_iff_right asks]
    exact (and_iff_right harmless).symm

end PartialMerge

/- The external forms of {list_append, [1]} and {list_append, [2]}. -/
def appendOne : Bytes :=
  [131, 104, 2, 100, 0, 11, 108, 105, 115, 116, 95, 97, 112, 112, 101, 110, 100, 107, 0, 1, 1]
def appendTwo : Bytes :=
  [131, 104, 2, 100, 0, 11, 108, 105, 115, 116, 95, 97, 112, 112, 101, 110, 100, 107, 0, 1, 2]

/- Appending 1 and then 2 to an absent list, as operands of one call and of a partial merge. -/
theorem partial_merge_iff_two_appends :
    ([48] : Bytes) = [131, 107, 0, 2, 1, 2] ↔
      RunLostHarmless Wire.codec none [] [appendOne, appendTwo] [] ∧
        TermKept Wire.codec none [] [appendOne, appendTwo] [] := by
  have external : ∀ op ∈ [appendOne, appendTwo], Decodes Wire.codec op := by
    intro op member
    rcases List.mem_cons.mp member with rfl | last
    · exact ⟨(ListOp.append [.fixInteger 1]).toTerm, by decide⟩
    · rw [List.mem_singleton.mp last]
      exact ⟨(ListOp.append [.fixInteger 2]).toTerm, by decide⟩
  have alone : erlangMerge Wire.codec [] none [appendOne, appendTwo] =
      .ok (some [131, 107, 0, 2, 1, 2]) := by decide
  apply partial_merge_iff external (List.cons_ne_nil _ _) alone
  · decide
  · decide
  · exact writes_some (t := .list [.fixInteger 1, .fixInteger 2]) (by decide) ⟨_, rfl, by decide⟩
  · rintro t ⟨⟩
  · exact writes_some (t := .list [.fixInteger 1, .fixInteger 2]) (by decide) ⟨_, rfl, by decide⟩

theorem partial_merge_loses_appends :
    Wire.codec.decode appendOne = some (ListOp.append [.fixInteger 1]).toTerm ∧
    Wire.codec.decode appendTwo = some (ListOp.append [.fixInteger 2]).toTerm ∧
    ∃ p grouped whole,
      erlangMerge Wire.codec [] none [appendOne, appendTwo] = .ok (some p) ∧
      erlangMerge Wire.codec [] none ([] ++ [p] ++ []) = .ok (some grouped) ∧
      erlangMerge Wire.codec [] none ([] ++ [appendOne, appendTwo] ++ []) = .ok (some whole) ∧
      grouped ≠ whole :=
  ⟨by decide, by decide, [131, 107, 0, 2, 1, 2], [48],
    [131, 107, 0, 2, 1, 2], by decide, by decide, by decide, by decide⟩

end ExRocket
