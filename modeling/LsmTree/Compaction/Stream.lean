import LsmTree.Entry

/-! `CompactionStream`: the fold that a flush or a compaction runs over its merged input, without a
compaction filter and with `zero_seqnos` off, as every caller sets it. -/
namespace LsmTree

open List

variable {K V : Type*} [LinearOrder K]

/-- What a stream may make of an entry: the entry itself, or a merged value or operand under its
key and sequence number. -/
structure InternalValue.Yields (f e : InternalValue K V) : Prop where
  userKey : e.userKey = f.userKey
  seqno : e.seqno = f.seqno
  type : e = f ∨ e.valueType = .value ∨ e.valueType = .mergeOperand

omit [LinearOrder K] in
theorem InternalValue.Yields.refl (e : InternalValue K V) : e.Yields e := ⟨rfl, rfl, Or.inl rfl⟩

structure StreamConfig (K V : Type*) where
  gcSeqnoThreshold : ℕ
  evictTombstones : Bool
  mergeOperator : Option (MergeOperator K V)
  rtApply : List (RangeTombstone K)

namespace StreamConfig

variable (c : StreamConfig K V)

/-- Only tombstones strictly below the watermark are applied. -/
def applied : List (RangeTombstone K) := c.rtApply.filter (·.visibleAt c.gcSeqnoThreshold)

def coveredByAppliedTombstone (k : K) (seqno : ℕ) : Bool :=
  c.applied.any fun rt => rt.contains k && decide (seqno < rt.seqno)

/-- What `drain_key` leaves of the input. -/
def drainKey (k : K) (inner : List (InternalValue K V)) :
    List (InternalValue K V) :=
  inner.dropWhile fun e => e.userKey = k

inductive LoopEnd (V : Type*) where
  | exhausted
  | boundary (base : Option V)
  | indirection
  deriving DecidableEq, Repr

/-- The operand loop: the operands taken after the head, how it ended, the input left. -/
def collectOperands (k : K) :
    List (InternalValue K V) → List (InternalValue K V) × LoopEnd V × List (InternalValue K V)
  | [] => ([], .exhausted, [])
  | next :: inner =>
    if next.userKey = k then
      match next.valueType with
      | .indirection => ([], .indirection, next :: inner)
      | .mergeOperand =>
        let r := collectOperands k inner
        (next :: r.1, r.2)
      | .value =>
        -- a covered base is deleted state: the operands fold onto nothing
        ([], .boundary (if c.coveredByAppliedTombstone k next.seqno then none
          else some next.value), drainKey k inner)
      | .tombstone | .weakTombstone => ([], .boundary none, drainKey k inner)
    else ([], .exhausted, next :: inner)

def uncoveredOperands (es : List (InternalValue K V)) : List V :=
  ((es.filter fun e => !c.coveredByAppliedTombstone e.userKey e.seqno).map (·.value)).reverse

/-- The entry to go on with, what is put back in front of the input, the input left. -/
def resolveMergeOperands (m : MergeOperator K V) (head : InternalValue K V)
    (inner : List (InternalValue K V)) :
    InternalValue K V × List (InternalValue K V) × List (InternalValue K V) :=
  let r := c.collectOperands head.userKey inner
  let operands := c.uncoveredOperands (head :: r.1)
  match r.2.1 with
  | .indirection => (head, r.1, r.2.2)
  | .exhausted =>
    ({ head with
        valueType := .mergeOperand
        value := m.merge head.userKey none operands }, [], r.2.2)
  | .boundary base =>
    ({ head with
        valueType := .value
        value := m.merge head.userKey base operands }, [], r.2.2)

def resolveWithOperator (head : InternalValue K V) (inner : List (InternalValue K V)) :
    InternalValue K V × List (InternalValue K V) × List (InternalValue K V) :=
  match c.mergeOperator with
  | none => (head, [], inner)
  | some m => c.resolveMergeOperands m head inner

structure Turn (K V : Type*) where
  out : Option (InternalValue K V)
  pending : List (InternalValue K V)
  inner : List (InternalValue K V)
  deriving DecidableEq, Repr

/-- The end of a turn: the surviving entry goes out unless an applied tombstone outranks it. -/
def emit (head : InternalValue K V) (pending inner : List (InternalValue K V)) : Turn K V :=
  ⟨if c.coveredByAppliedTombstone head.userKey head.seqno then none else some head,
    pending, inner⟩

def collapse (head : InternalValue K V) (pending inner : List (InternalValue K V)) : Turn K V :=
  let r := c.resolveWithOperator head inner
  c.emit r.1 (pending ++ r.2.1) r.2.2

/-- The head is the last entry of its key in the stream. -/
def turnLast (head : InternalValue K V) (pending inner : List (InternalValue K V)) : Turn K V :=
  if head.isTombstone && c.evictTombstones then ⟨none, pending, inner⟩
  else if head.isMergeOperand && decide (head.seqno < c.gcSeqnoThreshold) then
    c.collapse head pending inner
  else c.emit head pending inner

/-- The next entry of the stream is an older version of the head's key. -/
def turnShadowing (head peeked : InternalValue K V) (pending inner : List (InternalValue K V)) :
    Turn K V :=
  if head.valueType = .tombstone ∧ c.evictTombstones = true ∧ head.seqno < c.gcSeqnoThreshold then
    ⟨none, pending, drainKey head.userKey inner⟩
  else if head.valueType = .weakTombstone ∧ peeked.valueType = .value ∧
      head.seqno < c.gcSeqnoThreshold then
    ⟨none, pending, drainKey head.userKey inner⟩
  else if peeked.seqno < c.gcSeqnoThreshold then
    if head.isMergeOperand then
      if head.seqno < c.gcSeqnoThreshold then c.collapse head pending inner
      else c.emit head pending inner
    else if head.seqno < c.gcSeqnoThreshold then
      c.emit head pending (drainKey head.userKey inner)
    else c.emit head pending inner
  else c.emit head pending inner

def turn (head : InternalValue K V) (pending inner : List (InternalValue K V)) : Turn K V :=
  match inner with
  | [] => c.turnLast head pending inner
  | peeked :: _ =>
    if peeked.userKey = head.userKey then c.turnShadowing head peeked pending inner
    else c.turnLast head pending inner

/-- One turn from a state of the stream; nothing is left when there is no turn to take. -/
def nextTurn : List (InternalValue K V) → List (InternalValue K V) → Option (Turn K V)
  | head :: pending, inner => some (c.turn head pending inner)
  | [], head :: inner => some (c.turn head [] inner)
  | [], [] => none

def runFuel : ℕ → List (InternalValue K V) → List (InternalValue K V) → List (InternalValue K V)
  | 0, _, _ => []
  | fuel + 1, pending, inner =>
    match c.nextTurn pending inner with
    | none => []
    | some t => t.out.toList ++ runFuel fuel t.pending t.inner

/-- Everything the stream yields from a state. A turn uses up at least one entry. -/
def run (pending inner : List (InternalValue K V)) : List (InternalValue K V) :=
  c.runFuel (pending.length + inner.length) pending inner

def compactionStream (input : List (InternalValue K V)) : List (InternalValue K V) :=
  c.run [] input

section Turns

variable {c} {k : K} {head : InternalValue K V} {pending inner : List (InternalValue K V)}

theorem drainKey_sublist (k : K) (inner : List (InternalValue K V)) :
    (drainKey k inner).Sublist inner := dropWhile_sublist _

theorem collectOperands_sublist (k : K) (inner : List (InternalValue K V)) :
    ((c.collectOperands k inner).1 ++ (c.collectOperands k inner).2.2).Sublist inner := by
  induction inner with
  | nil => exact List.Sublist.refl _
  | cons next inner ih =>
    have hd := (drainKey_sublist k inner).cons next
    simp only [collectOperands]
    split
    · cases next.valueType with
      | mergeOperand => exact ih.cons_cons next
      | indirection => exact List.Sublist.refl _
      | value => exact hd
      | tombstone => exact hd
      | weakTombstone => exact hd
    · exact List.Sublist.refl _

theorem resolveWithOperator_sublist :
    ((c.resolveWithOperator head inner).2.1 ++
      (c.resolveWithOperator head inner).2.2).Sublist inner := by
  unfold resolveWithOperator
  cases c.mergeOperator with
  | none => exact List.Sublist.refl _
  | some m =>
    have h := c.collectOperands_sublist head.userKey inner
    simp only [resolveMergeOperands]
    cases (c.collectOperands head.userKey inner).2.1 with
    | indirection => exact h
    | exhausted => exact (sublist_append_right _ _).trans h
    | boundary base => exact (sublist_append_right _ _).trans h

theorem resolveWithOperator_key (head : InternalValue K V) (inner : List (InternalValue K V)) :
    (c.resolveWithOperator head inner).1.userKey = head.userKey := by
  unfold resolveWithOperator
  cases c.mergeOperator with
  | none => rfl
  | some m =>
    simp only [resolveMergeOperands]
    cases (c.collectOperands head.userKey inner).2.1 <;> rfl

/-- A turn emits an entry of its own key; of the input it puts some back and leaves the rest. -/
structure Turn.Passes (t : Turn K V) (head : InternalValue K V)
    (pending inner : List (InternalValue K V)) : Prop where
  out : ∀ e, t.out = some e → e.userKey = head.userKey
  rest : ∃ put, t.pending = pending ++ put ∧ (put ++ t.inner).Sublist inner

namespace Turn.Passes

variable {t : Turn K V}

omit [LinearOrder K] in
theorem sublist (h : t.Passes head pending inner) :
    (t.pending ++ t.inner).Sublist (pending ++ inner) := by
  obtain ⟨put, hp, hs⟩ := h.rest
  rw [hp, append_assoc]
  exact hs.append_left pending

omit [LinearOrder K] in
theorem pending_mem (h : t.Passes head pending inner) {e : InternalValue K V}
    (he : e ∈ t.pending) : e ∈ pending ∨ e ∈ inner :=
  mem_append.1 (h.sublist.subset (mem_append_left _ he))

omit [LinearOrder K] in
theorem inner_mem (h : t.Passes head pending inner) {e : InternalValue K V}
    (he : e ∈ t.inner) : e ∈ inner := by
  obtain ⟨put, -, hs⟩ := h.rest
  exact hs.subset (mem_append_right _ he)

omit [LinearOrder K] in
theorem length_le (h : t.Passes head pending inner) :
    t.pending.length + t.inner.length ≤ pending.length + inner.length := by
  have := h.sublist.length_le
  simpa only [length_append] using this

end Turn.Passes

variable {e : InternalValue K V}

theorem emit_out (h : (c.emit head pending inner).out = some e) :
    e = head := by
  unfold emit at h
  split at h
  · cases h
  · exact (Option.some.inj h).symm

variable {inner' : List (InternalValue K V)}

theorem emit_passes (h : inner'.Sublist inner) :
    (c.emit head pending inner').Passes head pending inner :=
  ⟨fun e he => by rw [emit_out he], [], (append_nil _).symm, h⟩

theorem collapse_passes : (c.collapse head pending inner).Passes head pending inner :=
  ⟨fun e he => by rw [emit_out he, resolveWithOperator_key], _, rfl,
    resolveWithOperator_sublist⟩

omit [LinearOrder K] in
theorem silent_passes (h : inner'.Sublist inner) :
    (⟨none, pending, inner'⟩ : Turn K V).Passes head pending inner :=
  ⟨nofun, [], (append_nil _).symm, h⟩

theorem turnLast_passes : (c.turnLast head pending inner).Passes head pending inner := by
  unfold turnLast
  split_ifs
  · exact silent_passes (List.Sublist.refl _)
  · exact collapse_passes
  · exact emit_passes (List.Sublist.refl _)

theorem turnShadowing_passes (peeked : InternalValue K V) :
    (c.turnShadowing head peeked pending inner).Passes head pending inner := by
  have hd := drainKey_sublist head.userKey inner
  unfold turnShadowing
  split_ifs
  · exact silent_passes hd
  · exact silent_passes hd
  · exact collapse_passes
  · exact emit_passes (List.Sublist.refl _)
  · exact emit_passes hd
  · exact emit_passes (List.Sublist.refl _)
  · exact emit_passes (List.Sublist.refl _)

variable (c head pending inner) in
theorem turn_passes : (c.turn head pending inner).Passes head pending inner := by
  cases inner with
  | nil => exact turnLast_passes
  | cons peeked rest =>
    simp only [turn]
    split
    · exact turnShadowing_passes peeked
    · exact turnLast_passes

variable {t : Turn K V}

theorem nextTurn_passes (h : c.nextTurn pending inner = some t) :
    ∃ head pending' inner', pending ++ inner = head :: (pending' ++ inner') ∧
      t.Passes head pending' inner' := by
  cases pending with
  | cons head pending =>
    cases h
    exact ⟨head, pending, inner, rfl, turn_passes ..⟩
  | nil =>
    cases inner with
    | nil => cases h
    | cons head inner =>
      cases h
      exact ⟨head, [], inner, rfl, turn_passes ..⟩

theorem nextTurn_length (h : c.nextTurn pending inner = some t) :
    t.pending.length + t.inner.length < pending.length + inner.length := by
  obtain ⟨head, pending', inner', heq, hp⟩ := nextTurn_passes h
  have hlen := congrArg List.length heq
  have := hp.length_le
  simp only [length_append, length_cons] at hlen
  omega

theorem runFuel_of_le (fuel : ℕ) (h : pending.length + inner.length ≤ fuel) :
    c.runFuel fuel pending inner = c.run pending inner := by
  suffices H : ∀ fuel fuel' pending inner, pending.length + inner.length ≤ fuel →
      pending.length + inner.length ≤ fuel' →
      c.runFuel fuel pending inner = c.runFuel fuel' pending inner from
    H _ _ _ _ h le_rfl
  intro fuel
  induction fuel with
  | zero =>
    intro fuel' pending inner h _
    have hp : pending = [] := length_eq_zero_iff.1 (by omega)
    have hi : inner = [] := length_eq_zero_iff.1 (by omega)
    subst hp hi
    cases fuel' <;> rfl
  | succ fuel ih =>
    intro fuel' pending inner h h'
    cases fuel' with
    | zero =>
      have hp : pending = [] := length_eq_zero_iff.1 (by omega)
      have hi : inner = [] := length_eq_zero_iff.1 (by omega)
      subst hp hi
      rfl
    | succ fuel' =>
      simp only [runFuel]
      cases ht : c.nextTurn pending inner with
      | none => rfl
      | some t =>
        have := nextTurn_length ht
        simp only [ih fuel' t.pending t.inner (by omega) (by omega)]

theorem run_nextTurn (h : c.nextTurn pending inner = some t) :
    c.run pending inner = t.out.toList ++ c.run t.pending t.inner := by
  have hl := nextTurn_length h
  rw [← runFuel_of_le ((pending.length + inner.length - 1) + 1) (by omega)]
  simp only [runFuel, h]
  rw [runFuel_of_le _ (by omega)]

theorem run_pending :
    c.run (head :: pending) inner = (c.turn head pending inner).out.toList ++
      c.run (c.turn head pending inner).pending (c.turn head pending inner).inner :=
  run_nextTurn rfl

theorem run_input :
    c.run [] (head :: inner) = (c.turn head [] inner).out.toList ++
      c.run (c.turn head [] inner).pending (c.turn head [] inner).inner :=
  run_nextTurn rfl

@[simp] theorem run_nil : c.run [] [] = [] := rfl

theorem nextTurn_none (h : c.nextTurn pending inner = none) : c.run pending inner = [] := by
  cases pending with
  | cons head pending => cases h
  | nil =>
    cases inner with
    | cons head inner => cases h
    | nil => rfl

/-- What a run yields comes out of a turn on an entry of its input. -/
theorem mem_run (pending inner : List (InternalValue K V)) :
    ∀ e ∈ c.run pending inner, ∃ head ∈ pending ++ inner, ∃ pending' inner',
      (c.turn head pending' inner').out = some e := by
  induction hn : pending.length + inner.length using Nat.strong_induction_on
    generalizing pending inner with
  | _ n ih =>
    intro e he
    cases ht : c.nextTurn pending inner with
    | none =>
      rw [nextTurn_none ht] at he
      cases he
    | some t =>
      have hlt := nextTurn_length ht
      obtain ⟨head, pending', inner', heq, hp⟩ := nextTurn_passes ht
      rw [run_nextTurn ht] at he
      rcases mem_append.1 he with h | h
      · have hout : t.out = some e := by simpa using h
        cases pending with
        | cons head pending =>
          cases ht
          exact ⟨head, mem_cons_self, pending, inner, hout⟩
        | nil =>
          cases inner with
          | nil => cases ht
          | cons head inner =>
            cases ht
            exact ⟨head, mem_cons_self, [], inner, hout⟩
      · obtain ⟨head', hh, hturn⟩ := ih _ (by omega) t.pending t.inner rfl e h
        rw [heq]
        exact ⟨head', mem_cons_of_mem _ (hp.sublist.subset hh), hturn⟩

theorem run_key_mem (pending inner : List (InternalValue K V)) :
    ∀ e ∈ c.run pending inner, ∃ f ∈ pending ++ inner, f.userKey = e.userKey := by
  intro e he
  obtain ⟨head, hh, pending', inner', hout⟩ := mem_run pending inner e he
  exact ⟨head, hh, ((turn_passes c head pending' inner').out e hout).symm⟩

theorem run_sorted (pending inner : List (InternalValue K V))
    (h : (pending ++ inner).Pairwise fun a b => a.userKey ≤ b.userKey) :
    (c.run pending inner).Pairwise fun a b => a.userKey ≤ b.userKey := by
  induction hn : pending.length + inner.length using Nat.strong_induction_on
    generalizing pending inner with
  | _ n ih =>
    cases ht : c.nextTurn pending inner with
    | none =>
      rw [nextTurn_none ht]
      exact List.Pairwise.nil
    | some t =>
      have hlt := nextTurn_length ht
      obtain ⟨head, pending', inner', heq, hp⟩ := nextTurn_passes ht
      rw [heq, pairwise_cons] at h
      rw [run_nextTurn ht, pairwise_append]
      refine ⟨by cases t.out <;> simp,
        ih _ (by omega) t.pending t.inner (h.2.sublist hp.sublist) rfl, ?_⟩
      -- what goes out has the head's key, and the head comes before everything left
      intro a ha b hb
      obtain ⟨f, hf, hk⟩ := run_key_mem t.pending t.inner b hb
      rw [hp.out a (by simpa using ha), ← hk]
      exact h.1 f (hp.sublist.subset hf)

theorem turn_out (h : (c.turn head pending inner).out = some e) :
    e = head ∨ e = (c.resolveWithOperator head inner).1 := by
  have hlast : ∀ {inner' : List (InternalValue K V)}, (c.turnLast head pending inner').out = some e →
      e = head ∨ e = (c.resolveWithOperator head inner').1 := by
    intro inner' h
    unfold turnLast at h
    split_ifs at h
    · exact Or.inr (emit_out h)
    · exact Or.inl (emit_out h)
  cases inner with
  | nil => exact hlast h
  | cons peeked rest =>
    simp only [turn] at h
    split at h
    · unfold turnShadowing at h
      split_ifs at h
      · exact Or.inr (emit_out h)
      · exact Or.inl (emit_out h)
      · exact Or.inl (emit_out h)
      · exact Or.inl (emit_out h)
      · exact Or.inl (emit_out h)
    · exact hlast h

theorem resolveWithOperator_yields (head : InternalValue K V) (inner : List (InternalValue K V)) :
    head.Yields (c.resolveWithOperator head inner).1 := by
  unfold resolveWithOperator
  cases c.mergeOperator with
  | none => exact InternalValue.Yields.refl head
  | some m =>
    simp only [resolveMergeOperands]
    cases (c.collectOperands head.userKey inner).2.1 with
    | indirection => exact InternalValue.Yields.refl head
    | exhausted => exact ⟨rfl, rfl, Or.inr (Or.inr rfl)⟩
    | boundary base => exact ⟨rfl, rfl, Or.inr (Or.inl rfl)⟩

theorem run_yields (pending inner : List (InternalValue K V)) :
    ∀ e ∈ c.run pending inner, ∃ f ∈ pending ++ inner, f.Yields e := by
  intro e he
  obtain ⟨head, hh, pending', inner', hout⟩ := mem_run pending inner e he
  refine ⟨head, hh, ?_⟩
  rcases turn_out hout with rfl | rfl
  · exact InternalValue.Yields.refl _
  · exact resolveWithOperator_yields head inner'

theorem turn_uncovered (h : (c.turn head pending inner).out = some e) :
    c.coveredByAppliedTombstone e.userKey e.seqno = false := by
  have hemit : ∀ {head' : InternalValue K V} {pending' inner' : List (InternalValue K V)},
      (c.emit head' pending' inner').out = some e →
      c.coveredByAppliedTombstone e.userKey e.seqno = false := by
    intro head' pending' inner' hout
    unfold emit at hout
    split at hout
    · cases hout
    · rename_i hcov
      cases hout
      exact Bool.eq_false_iff.2 hcov
  have hlast : ∀ {inner' : List (InternalValue K V)},
      (c.turnLast head pending inner').out = some e →
      c.coveredByAppliedTombstone e.userKey e.seqno = false := by
    intro inner' hout
    unfold turnLast at hout
    split_ifs at hout
    · exact hemit hout
    · exact hemit hout
  cases inner with
  | nil => exact hlast h
  | cons peeked rest =>
    simp only [turn] at h
    split at h
    · unfold turnShadowing at h
      split_ifs at h
      all_goals exact hemit h
    · exact hlast h

theorem run_uncovered (pending inner : List (InternalValue K V)) :
    ∀ e ∈ c.run pending inner, c.coveredByAppliedTombstone e.userKey e.seqno = false := by
  intro e he
  obtain ⟨head, -, pending', inner', hout⟩ := mem_run pending inner e he
  exact turn_uncovered hout

variable {input : List (InternalValue K V)}

theorem compactionStream_key_mem (h : e ∈ c.compactionStream input) :
    ∃ f ∈ input, f.userKey = e.userKey :=
  run_key_mem [] input e h

theorem compactionStream_sorted (h : input.Pairwise fun a b => a.userKey ≤ b.userKey) :
    (c.compactionStream input).Pairwise fun a b => a.userKey ≤ b.userKey := run_sorted [] input h

end Turns

end StreamConfig

end LsmTree
