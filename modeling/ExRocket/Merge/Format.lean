import ExRocket.Library.Regroup
import ExRocket.Merge.Grouping

/-! Storing terms. put and mergeb write external terms and getb reads one, so the value of a
key should stay in the external format. It leaves the format when a merge starts from nothing
with an operand that asks for nothing, or when the store puts the result of a partial merge,
which asks for nothing either, in the place of the operations it merged. -/
namespace ExRocket

open Rust Regroup

/-- Erlang's own external format, next to the crate's: the crate reads what Erlang writes,
and Erlang reads what the crate reads. -/
structure Runtime (c : Eetf) where
  Term : Type
  termToBinary : Term → Bytes
  binaryToTerm : Bytes → Option Term
  decodes : ∀ t, ∃ e, c.decode (termToBinary t) = some e
  reads : ∀ bytes e, c.decode bytes = some e → ∃ t, binaryToTerm bytes = some t
  version : ∀ bytes t, binaryToTerm bytes = some t → bytes.head? = some 131

/-- The calls on one key. In between the store folds a prefix of the pending operands into
the base, or puts the partial merge of a run of them in its place. -/
inductive Action (T : Type) where
  | put (t : T)
  | delete
  | mergeb (operand : T)
  | fold (folded rest : List Bytes)
  | partialMerge (before run after : List Bytes)

inductive Getb (T : Type) where
  | undefined
  | ok (t : T)
  | raised

/-- The call returns, and a term that it writes reads back. -/
def Evaluates (c : Eetf) (key : Bytes) (base : Option Bytes) (operands : List Bytes)
    (v : Option Bytes) : Prop :=
  erlangMerge c key base operands = .ok v ∧
    (decoded c operands ≠ [] → Writes c (referenceMerge c base operands))

/-- A reader finds the base, or merges what is pending. -/
def Finds (c : Eetf) (key : Bytes) (s : Pending Bytes) (v : Option Bytes) : Prop :=
  if s.operands = [] then v = s.base else Evaluates c key s.base s.operands v

section Key

variable {c : Eetf} (rt : Runtime c) (key : Bytes)

def getb : Option Bytes → Getb rt.Term
  | none => .undefined
  | some bytes =>
    match rt.binaryToTerm bytes with
    | some t => .ok t
    | none => .raised

inductive Takes : Pending Bytes → Action rt.Term → Pending Bytes → Prop where
  | put (s : Pending Bytes) (t : rt.Term) : Takes s (.put t) ⟨some (rt.termToBinary t), []⟩
  | delete (s : Pending Bytes) : Takes s .delete ⟨none, []⟩
  | mergeb (s : Pending Bytes) (operand : rt.Term) :
      Takes s (.mergeb operand) ⟨s.base, s.operands ++ [rt.termToBinary operand]⟩
  | fold (base : Option Bytes) (a b : List Bytes) (v : Option Bytes) : a ≠ [] →
      Evaluates c key base a v → Takes ⟨base, a ++ b⟩ (.fold a b) ⟨v, b⟩
  | partialMerge (base : Option Bytes) (a r b : List Bytes) (p : Bytes) : 2 ≤ r.length →
      Evaluates c key none r (some p) →
      Takes ⟨base, a ++ r ++ b⟩ (.partialMerge a r b) ⟨base, a ++ [p] ++ b⟩

/-- The states of a key that is absent at first, when every step is an allowed one. -/
inductive Reached (allowed : Pending Bytes → Action rt.Term → Prop) : Pending Bytes → Prop where
  | absent : Reached allowed ⟨none, []⟩
  | step {s t : Pending Bytes} {a : Action rt.Term} : Reached allowed s → allowed s a →
      Takes rt key s a t → Reached allowed t

end Key

/-- A call over the operands makes a term: one of them is external, and there is a stored term
or an operation to make one. -/
def YieldsTerm (c : Eetf) (base : Option Bytes) (operands : List Bytes) : Prop :=
  decoded c operands ≠ [] ∧ (base.bind c.decode ≠ none ∨ ∃ op ∈ operands, Recognised c op)

/-- What the calls and the store must respect. A merge on a key with nothing stored is a
recognised operation; a fold that leaves operands leaves an external one, and a term or an
operation that makes one; a partial merge leaves an external operand, and the operands
outside the run do without it. -/
def Keeps {c : Eetf} (rt : Runtime c) (s : Pending Bytes) : Action rt.Term → Prop
  | .put _ | .delete => True
  | .mergeb operand =>
    s.base ≠ none ∨ s.operands ≠ [] ∨ Recognised c (rt.termToBinary operand)
  | .fold a b =>
    b ≠ [] → decoded c b ≠ [] ∧ (YieldsTerm c s.base a ∨ ∃ op ∈ b, Recognised c op)
  | .partialMerge a r b =>
    ((∃ op ∈ r, Recognised c op) ∨ decoded c (a ++ b) ≠ []) ∧
      (s.base.bind c.decode ≠ none ∨ ∃ op ∈ a ++ b, Recognised c op)

def InFormat (c : Eetf) (v : Option Bytes) : Prop := ∀ bytes, v = some bytes → Decodes c bytes

def Readable (c : Eetf) (s : Pending Bytes) : Prop :=
  if s.operands = [] then InFormat c s.base else YieldsTerm c s.base s.operands

section Evaluation

variable {c : Eetf} {key : Bytes} {base v : Option Bytes} {operands : List Bytes}

theorem inFormat_none : InFormat c none := by
  rintro bytes ⟨⟩

theorem inFormat_some {bytes : Bytes} : InFormat c (some bytes) ↔ Decodes c bytes := by
  simp [InFormat]

theorem bind_decode_ne_none_iff :
    v.bind c.decode ≠ none ↔ ∃ bytes, v = some bytes ∧ Decodes c bytes := by
  cases v with
  | none => simp
  | some bytes => simp [Option.ne_none_iff_exists', Decodes]

theorem inFormat_stored (stored : InFormat c base) :
    base.bind c.decode ≠ none ↔ base ≠ none := by
  rw [bind_decode_ne_none_iff, Option.ne_none_iff_exists']
  constructor
  · rintro ⟨bytes, same, _⟩
    exact ⟨bytes, same⟩
  · rintro ⟨bytes, same⟩
    exact ⟨bytes, same, stored bytes same⟩

/-- The result of a call is external exactly when the operands yield a term. -/
theorem evaluates_decodes_iff (evaluates : Evaluates c key base operands v) :
    v.bind c.decode ≠ none ↔ YieldsTerm c base operands := by
  obtain ⟨returns, writes⟩ := evaluates
  obtain rfl := erlangMerge_ok returns
  rw [Option.bind_some, YieldsTerm]
  by_cases idle : decoded c operands = []
  · rw [settled_text (.inl idle), stringSum_not_decoded]
    simp [idle]
  · rw [settled_reads (writes idle), if_neg idle, ne_eq, referenceMerge_none_iff,
      and_iff_right idle, not_and_or, not_not]

theorem evaluates_inFormat_iff (evaluates : Evaluates c key base operands v) :
    InFormat c v ↔ YieldsTerm c base operands := by
  rw [← evaluates_decodes_iff evaluates, bind_decode_ne_none_iff]
  obtain rfl := erlangMerge_ok evaluates.1
  simp [InFormat]

theorem run_idle {current : Option EetfTerm} {ts : List EetfTerm} (fits : ValueFits current)
    (idle : ∀ t ∈ ts, Operation.read t = none) : runOperands c current ts = .ok current := by
  induction ts with
  | nil => rfl
  | cons t ts ih =>
    have step : processEetfMergeOperation c current t = .ok current := by
      rw [process_eq c current fits, idle t List.mem_cons_self]
      rfl
    have rest := ih fun u member => idle u (List.mem_cons_of_mem t member)
    simp only [runOperands, step, bind, Except.bind, rest]

theorem evaluates_text (text : ¬ YieldsTerm c base operands) :
    Evaluates c key base operands (some (stringSum base operands)) := by
  by_cases idle : decoded c operands = []
  · refine ⟨?_, fun processed => absurd idle processed⟩
    rw [erlangMerge_eq, idle, runOperands, Except.map, settled_text (.inl idle)]
  · have absent : base.bind c.decode = none ∧ ¬ ∃ op ∈ operands, Recognised c op := by
      rwa [YieldsTerm, and_iff_right idle, not_or, not_ne_iff] at text
    have nothing := referenceMerge_none_iff.mpr absent
    have unread := absent.2
    rw [recognised_iff] at unread
    push Not at unread
    refine ⟨?_, fun _ => ?_⟩
    · rw [erlangMerge_eq, run_idle (base_fits c base) unread, Except.map, absent.1,
        settled_text (.inr rfl)]
    · rw [nothing]
      rintro t ⟨⟩

theorem finds_inFormat_iff {s : Pending Bytes} (finds : Finds c key s v) :
    InFormat c v ↔ Readable c s := by
  unfold Finds at finds
  unfold Readable
  split at finds
  · rename_i idle
    rw [if_pos idle, finds]
  · rename_i pending
    rw [if_neg pending]
    exact evaluates_inFormat_iff finds

variable {rt : Runtime c}

theorem getb_inFormat (format : InFormat c v) : getb rt v ≠ .raised := by
  cases v with
  | none => simp [getb]
  | some bytes =>
    obtain ⟨e, decodes⟩ := format bytes rfl
    obtain ⟨t, reads⟩ := rt.reads bytes e decodes
    simp [getb, reads]

theorem getb_text : getb rt (some (stringSum base operands)) = .raised := by
  have raises : rt.binaryToTerm (stringSum base operands) = none := by
    rw [Option.eq_none_iff_forall_ne_some]
    intro t reads
    have text := Eetf.version_not_text (rt.version _ t reads)
    rw [stringSum, fromUtf8_intoBytes] at text
    cases text
  simp [getb, raises]

theorem recognised_append {a b : List Bytes} : (∃ op ∈ a ++ b, Recognised c op) ↔
    (∃ op ∈ a, Recognised c op) ∨ ∃ op ∈ b, Recognised c op := by
  simp only [List.mem_append, or_and_right, exists_or]

theorem mergeb_readable_iff {s : Pending Bytes} {operand : rt.Term} (readable : Readable c s) :
    Readable c ⟨s.base, s.operands ++ [rt.termToBinary operand]⟩ ↔
      Keeps rt s (.mergeb operand) := by
  obtain ⟨t, decodes⟩ := rt.decodes operand
  have processed : decoded c (s.operands ++ [rt.termToBinary operand]) ≠ [] := by
    simp [decoded, decodes]
  have pending : s.operands ++ [rt.termToBinary operand] ≠ [] := by simp
  rw [Readable, if_neg pending, YieldsTerm, and_iff_right processed, recognised_append, Keeps]
  rw [Readable] at readable
  split at readable
  · rename_i idle
    rw [inFormat_stored readable]
    simp [idle]
  · rename_i waiting
    refine iff_of_true ?_ (.inr (.inl waiting))
    rcases readable.2 with stored | asks
    · exact .inl stored
    · exact .inr (.inl asks)

theorem fold_readable_iff {a b : List Bytes} (readable : Readable c ⟨base, a ++ b⟩)
    (nonempty : a ≠ []) (evaluates : Evaluates c key base a v) :
    Readable c ⟨v, b⟩ ↔ Keeps rt ⟨base, a ++ b⟩ (.fold a b) := by
  by_cases last : b = []
  · subst last
    rw [Readable, if_neg (by simpa using nonempty), List.append_nil] at readable
    rw [Readable, if_pos rfl, evaluates_inFormat_iff evaluates, Keeps]
    exact iff_of_true readable fun impossible => absurd rfl impossible
  · rw [Readable, if_neg last, YieldsTerm, evaluates_decodes_iff evaluates, Keeps,
      imp_iff_right last]

/-- What a partial merge leaves is external exactly when the run holds an operation, and is
none itself. -/
theorem evaluates_alone {r : List Bytes} {p : Bytes} (evaluates : Evaluates c key none r (some p)) :
    (Decodes c p ↔ ∃ op ∈ r, Recognised c op) ∧ ¬ Recognised c p := by
  have decodes : Decodes c p ↔ YieldsTerm c none r := by
    rw [← evaluates_inFormat_iff evaluates, inFormat_some]
  by_cases idle : decoded c r = []
  · have text : ¬ Decodes c p := fun reads => (decodes.mp reads).1 idle
    refine ⟨iff_of_false text ?_, fun ⟨t, reads, _⟩ => text ⟨t, reads⟩⟩
    rw [recognised_iff, idle]
    simp
  · exact (partial_merge_reads evaluates.1 (evaluates.2 idle) idle).symm

theorem partialMerge_readable_iff {a r b : List Bytes} {p : Bytes}
    (evaluates : Evaluates c key none r (some p)) :
    Readable c ⟨base, a ++ [p] ++ b⟩ ↔ Keeps rt ⟨base, a ++ r ++ b⟩ (.partialMerge a r b) := by
  obtain ⟨decodes, plain⟩ := evaluates_alone evaluates
  have external : decoded c (a ++ [p] ++ b) ≠ [] ↔
      (∃ op ∈ r, Recognised c op) ∨ decoded c (a ++ b) ≠ [] := by
    rw [← decodes, Decodes, ← Option.ne_none_iff_exists']
    cases reads : c.decode p <;> simp [decoded, reads]
  have asks : (∃ op ∈ a ++ [p] ++ b, Recognised c op) ↔ ∃ op ∈ a ++ b, Recognised c op := by
    rw [recognised_append, recognised_append, recognised_append]
    simp [plain]
  rw [Readable, if_neg (by simp), YieldsTerm, external, asks, Keeps]

/-- A step keeps the value readable exactly when it meets its condition. -/
theorem takes_readable_iff {s t : Pending Bytes} {a : Action rt.Term} (readable : Readable c s)
    (takes : Takes rt key s a t) : Readable c t ↔ Keeps rt s a := by
  cases takes with
  | put s v =>
    rw [Readable, if_pos rfl, inFormat_some]
    exact iff_of_true (rt.decodes v) trivial
  | delete s =>
    rw [Readable, if_pos rfl]
    exact iff_of_true inFormat_none trivial
  | mergeb s operand => exact mergeb_readable_iff readable
  | fold base a b v nonempty evaluates => exact fold_readable_iff readable nonempty evaluates
  | partialMerge base a r b p long evaluates => exact partialMerge_readable_iff evaluates

theorem reached_readable {s : Pending Bytes} (reached : Reached rt key (Keeps rt) s) :
    Readable c s := by
  induction reached with
  | absent =>
    rw [Readable, if_pos rfl]
    exact inFormat_none
  | step _ keeps takes readable => exact (takes_readable_iff readable takes).mpr keeps

theorem unkept_raises {s t : Pending Bytes} {a : Action rt.Term} (readable : Readable c s)
    (unkept : ¬ Keeps rt s a) (takes : Takes rt key s a t) :
    ∃ v, Finds c key t v ∧ ¬ InFormat c v ∧ getb rt v = .raised := by
  have lost : ¬ Readable c t := fun kept => unkept ((takes_readable_iff readable takes).mp kept)
  have pending : t.operands ≠ [] := by
    intro idle
    cases takes with
    | put | delete => exact unkept trivial
    | mergeb => simp at idle
    | fold => exact unkept fun left => absurd idle left
    | partialMerge => simp at idle
  have finds : Finds c key t (some (stringSum t.base t.operands)) := by
    rw [Readable, if_neg pending] at lost
    rw [Finds, if_neg pending]
    exact evaluates_text lost
  exact ⟨_, finds, fun format => lost ((finds_inFormat_iff finds).mp format), getb_text⟩

end Evaluation

/-- While every step meets its condition a reader finds no value or an external term, and the
first step that does not makes getb raise. The same for one call of the operator. -/
theorem stays_in_format {c : Eetf} (rt : Runtime c) (key : Bytes) :
    (∀ s, Reached rt key (Keeps rt) s → ∀ v, Finds c key s v →
      InFormat c v ∧ getb rt v ≠ .raised) ∧
    (∀ s a t, Reached rt key (Keeps rt) s → ¬ Keeps rt s a → Takes rt key s a t →
      ∃ v, Finds c key t v ∧ ¬ InFormat c v ∧ getb rt v = .raised) ∧
    ∀ base operands v, InFormat c base → operands ≠ [] → (∀ op ∈ operands, Decodes c op) →
      Evaluates c key base operands v →
      ((∃ bytes, v = some bytes ∧ Decodes c bytes) ↔
        base ≠ none ∨ ∃ op ∈ operands, Recognised c op) := by
  refine ⟨?_, ?_, ?_⟩
  · intro s reached v finds
    have format := (finds_inFormat_iff finds).mpr (reached_readable reached)
    exact ⟨format, getb_inFormat format⟩
  · intro s a t reached unkept takes
    exact unkept_raises (reached_readable reached) unkept takes
  · intro base operands v stored nonempty external evaluates
    rw [← bind_decode_ne_none_iff, evaluates_decodes_iff evaluates, YieldsTerm,
      and_iff_right (decoded_ne_nil nonempty external), inFormat_stored stored]

/- A term of this runtime is known by its external bytes. -/
def Wire.runtime : Runtime Wire.codec where
  Term := { bytes : Bytes // (Wire.decode bytes).isSome }
  termToBinary t := t.val
  binaryToTerm bytes := if h : (Wire.decode bytes).isSome then some ⟨bytes, h⟩ else none
  decodes t := Option.isSome_iff_exists.mp t.property
  reads bytes e decodes := by
    have external : (Wire.decode bytes).isSome := Option.isSome_iff_exists.mpr ⟨e, decodes⟩
    exact ⟨⟨bytes, external⟩, dif_pos external⟩
  version bytes t reads := by
    split at reads
    · rename_i external
      obtain ⟨e, decodes⟩ := Option.isSome_iff_exists.mp external
      exact Wire.decode_version bytes e decodes
    · cases reads

/- The atom foo merged into an absent key reads back as the text 0. -/
theorem mergeb_leaves_format :
    ¬ ∀ s, Reached Wire.runtime [107] (fun _ _ => True) s →
      ∀ v, Finds Wire.codec [107] s v → InFormat Wire.codec v ∧ getb Wire.runtime v ≠ .raised := by
  intro keeps
  have merged : Takes Wire.runtime [107] ⟨none, []⟩
      (.mergeb ⟨[131, 100, 0, 3, 102, 111, 111], by decide⟩)
      ⟨none, [[131, 100, 0, 3, 102, 111, 111]]⟩ := .mergeb _ _
  have finds : Finds Wire.codec [107] ⟨none, [[131, 100, 0, 3, 102, 111, 111]]⟩ (some [48]) := by
    have nothing : referenceMerge Wire.codec none [[131, 100, 0, 3, 102, 111, 111]] = none := by
      decide
    refine ⟨by decide, ?_⟩
    intro _ t impossible
    rw [nothing] at impossible
    cases impossible
  have format := (keeps _ (.step .absent trivial merged) _ finds).1
  have text : Wire.codec.decode [48] = none := by decide
  obtain ⟨t, decodes⟩ := format _ rfl
  rw [text] at decodes
  cases decodes

end ExRocket
