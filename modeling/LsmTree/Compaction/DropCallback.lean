import LsmTree.Compaction.Stream

/-! The drop callback of `CompactionStream`: the entries that a turn reports as it leaves them out
of the output. -/
namespace LsmTree.StreamConfig

open List

variable {K V : Type*} [LinearOrder K]

section Model

/-- `drain_key` reports what it takes. -/
def drainDropped (k : K) (inner : List (InternalValue K V)) : List (InternalValue K V) :=
  inner.takeWhile fun e => e.userKey = k

variable (c : StreamConfig K V)

/-- The operand loop reports a deleted base, a tombstone it ends at, and what it drains below
either. -/
def collectDropped (k : K) : List (InternalValue K V) → List (InternalValue K V)
  | [] => []
  | next :: inner =>
    if next.userKey = k then
      match next.valueType with
      | .indirection => []
      | .mergeOperand => collectDropped k inner
      | .value =>
        (if c.coveredByAppliedTombstone k next.seqno then [next] else []) ++ drainDropped k inner
      | .tombstone | .weakTombstone => next :: drainDropped k inner
    else []

/-- A loop that ends at a blob handle folds nothing. -/
def resolveDropped (head : InternalValue K V) (inner : List (InternalValue K V)) :
    List (InternalValue K V) :=
  let r := c.collectOperands head.userKey inner
  match r.2.1 with
  | .indirection => []
  | .exhausted | .boundary _ =>
    c.collectDropped head.userKey inner ++
      (head :: r.1).filter fun e => c.coveredByAppliedTombstone e.userKey e.seqno

def emitDropped (head : InternalValue K V) : List (InternalValue K V) :=
  if c.coveredByAppliedTombstone head.userKey head.seqno then [head] else []

def collapseDropped (head : InternalValue K V) (inner : List (InternalValue K V)) :
    List (InternalValue K V) :=
  match c.mergeOperator with
  | none => c.emitDropped head
  | some m => c.resolveDropped head inner ++ c.emitDropped (c.resolveMergeOperands m head inner).1

def turnLastDropped (head : InternalValue K V) (inner : List (InternalValue K V)) :
    List (InternalValue K V) :=
  if head.isTombstone && c.evictTombstones then []
  else if head.isMergeOperand && decide (head.seqno < c.gcSeqnoThreshold) then
    c.collapseDropped head inner
  else c.emitDropped head

def turnShadowingDropped (head peeked : InternalValue K V) (inner : List (InternalValue K V)) :
    List (InternalValue K V) :=
  if head.valueType = .tombstone ∧ c.evictTombstones = true ∧ head.seqno < c.gcSeqnoThreshold then
    drainDropped head.userKey inner
  else if head.valueType = .weakTombstone ∧ peeked.valueType = .value ∧
      head.seqno < c.gcSeqnoThreshold then
    drainDropped head.userKey inner
  else if peeked.seqno < c.gcSeqnoThreshold then
    if head.isMergeOperand then
      if head.seqno < c.gcSeqnoThreshold then c.collapseDropped head inner
      else c.emitDropped head
    else if head.seqno < c.gcSeqnoThreshold then
      drainDropped head.userKey inner ++ c.emitDropped head
    else c.emitDropped head
  else c.emitDropped head

def turnDropped (head : InternalValue K V) (inner : List (InternalValue K V)) :
    List (InternalValue K V) :=
  match inner with
  | [] => c.turnLastDropped head inner
  | peeked :: _ =>
    if peeked.userKey = head.userKey then c.turnShadowingDropped head peeked inner
    else c.turnLastDropped head inner

def nextDropped : List (InternalValue K V) → List (InternalValue K V) → List (InternalValue K V)
  | head :: _, inner => c.turnDropped head inner
  | [], head :: inner => c.turnDropped head inner
  | [], [] => []

def droppedFuel : ℕ → List (InternalValue K V) → List (InternalValue K V) →
    List (InternalValue K V)
  | 0, _, _ => []
  | fuel + 1, pending, inner =>
    match c.nextTurn pending inner with
    | none => []
    | some t => c.nextDropped pending inner ++ droppedFuel fuel t.pending t.inner

def afterTurns : ℕ → List (InternalValue K V) → List (InternalValue K V) →
    List (InternalValue K V) × List (InternalValue K V)
  | 0, pending, inner => (pending, inner)
  | turns + 1, pending, inner =>
    match c.nextTurn pending inner with
    | none => (pending, inner)
    | some t => afterTurns turns t.pending t.inner

def dropped (input : List (InternalValue K V)) : List (InternalValue K V) :=
  c.droppedFuel input.length [] input

end Model

section Handles

variable {c : StreamConfig K V} {k : K} {head : InternalValue K V}
  {pending inner : List (InternalValue K V)}

def handles (es : List (InternalValue K V)) : List (InternalValue K V) :=
  es.filter fun e => e.valueType = .indirection

omit [LinearOrder K] in
@[simp] theorem handles_append (xs ys : List (InternalValue K V)) :
    handles (xs ++ ys) = handles xs ++ handles ys := filter_append _ _

omit [LinearOrder K] in
@[simp] theorem handles_nil : handles ([] : List (InternalValue K V)) = [] := rfl

omit [LinearOrder K] in
theorem handles_cons_of_ne (h : head.valueType ≠ .indirection) :
    handles (head :: inner) = handles inner := filter_cons_of_neg (by simpa using h)

omit [LinearOrder K] in
theorem handles_eq_nil {es : List (InternalValue K V)} (h : ∀ e ∈ es, e.valueType ≠ .indirection) :
    handles es = [] := filter_eq_nil_iff.2 (by simpa using h)

theorem drain_append (k : K) (inner : List (InternalValue K V)) :
    drainDropped k inner ++ drainKey k inner = inner := takeWhile_append_dropWhile

omit [LinearOrder K] in
theorem isMergeOperand_ne (h : head.isMergeOperand = true) : head.valueType ≠ .indirection := by
  intro hind
  simp [InternalValue.isMergeOperand, hind] at h

theorem collect_handles (k : K) (inner : List (InternalValue K V)) :
    (∀ e ∈ (c.collectOperands k inner).1, e.valueType = .mergeOperand) ∧
      handles inner =
        handles (c.collectDropped k inner) ++ handles (c.collectOperands k inner).2.2 ∧
      ((c.collectOperands k inner).2.1 = .indirection → c.collectDropped k inner = []) := by
  induction inner with
  | nil => exact ⟨(fun _ h => nomatch h), rfl, fun _ => rfl⟩
  | cons next inner ih =>
    by_cases hk : next.userKey = k
    · have hdrain := congrArg handles (drain_append k inner)
      rw [handles_append] at hdrain
      cases hv : next.valueType with
      | indirection => simp [collectOperands, collectDropped, hk, hv]
      | mergeOperand =>
        have hne : next.valueType ≠ .indirection := by simp [hv]
        refine ⟨?_, ?_, ?_⟩
        · simpa [collectOperands, hk, hv] using ih.1
        · rw [handles_cons_of_ne hne, ih.2.1]
          simp [collectOperands, collectDropped, hk, hv]
        · simpa [collectOperands, collectDropped, hk, hv] using ih.2.2
      | value =>
        have hne : next.valueType ≠ .indirection := by simp [hv]
        have hbase : handles (if c.coveredByAppliedTombstone k next.seqno then [next] else []) = [] := by
          refine handles_eq_nil fun e he => ?_
          split at he
          · rwa [mem_singleton.1 he]
          · cases he
        rw [handles_cons_of_ne hne, ← hdrain]
        simp [collectOperands, collectDropped, hk, hv, hbase]
      | tombstone | weakTombstone =>
        have hne : next.valueType ≠ .indirection := by simp [hv]
        rw [handles_cons_of_ne hne, ← hdrain]
        simp [collectOperands, collectDropped, hk, hv, handles_cons_of_ne hne]
    · simp [collectOperands, collectDropped, hk]

structure Turn.Accounted (t : Turn K V) (dropped : List (InternalValue K V))
    (head : InternalValue K V) (pending inner : List (InternalValue K V)) : Prop where
  pending : handles t.pending = handles pending
  rest : (handles (t.out.toList ++ dropped) ++ handles t.inner).Perm
    (handles [head] ++ handles inner)

theorem emit_handles (head : InternalValue K V) (pending inner : List (InternalValue K V)) :
    handles ((c.emit head pending inner).out.toList ++ c.emitDropped head) = handles [head] := by
  unfold emit emitDropped
  split <;> rfl

variable {inner' dropped : List (InternalValue K V)}

theorem emit_accounted (h : handles dropped ++ handles inner' = handles inner) :
    (c.emit head pending inner').Accounted (dropped ++ c.emitDropped head) head pending inner := by
  refine ⟨rfl, ?_⟩
  rw [← c.emit_handles head pending inner', ← h]
  simp only [handles_append, append_assoc]
  exact (perm_append_comm_assoc _ _ _).append_left _

theorem emit_head_accounted :
    (c.emit head pending inner).Accounted (c.emitDropped head) head pending inner :=
  @emit_accounted _ _ _ c head pending inner inner [] rfl

theorem resolve_ne (hop : head.isMergeOperand = true) (m : MergeOperator K V) :
    (c.resolveMergeOperands m head inner).1.valueType ≠ .indirection := by
  simp only [resolveMergeOperands]
  cases (c.collectOperands head.userKey inner).2.1 with
  | indirection => exact isMergeOperand_ne hop
  | exhausted => simp
  | boundary base => simp

theorem collapse_accounted (hop : head.isMergeOperand = true) :
    (c.collapse head pending inner).Accounted (c.collapseDropped head inner) head pending inner := by
  have hne := isMergeOperand_ne hop
  cases hm : c.mergeOperator with
  | none =>
    simpa [collapse, collapseDropped, resolveWithOperator, hm] using emit_head_accounted
  | some m =>
    obtain ⟨hops, hinner, hnone⟩ := c.collect_handles head.userKey inner
    have hput : handles (c.collectOperands head.userKey inner).1 = [] :=
      handles_eq_nil fun e he => by simp [hops e he]
    have hcovered : handles ((head :: (c.collectOperands head.userKey inner).1).filter fun e =>
        c.coveredByAppliedTombstone e.userKey e.seqno) = [] := by
      refine handles_eq_nil fun e he => ?_
      rcases mem_cons.1 (mem_of_mem_filter he) with rfl | he
      · exact hne
      · simp [hops e he]
    have hresolve : handles (c.resolveMergeOperands m head inner).2.1 = [] ∧
        handles (c.resolveDropped head inner) ++
          handles (c.resolveMergeOperands m head inner).2.2 = handles inner := by
      simp only [resolveMergeOperands, resolveDropped]
      cases hend : (c.collectOperands head.userKey inner).2.1 with
      | indirection => simp [hput, hinner, hnone hend]
      | exhausted => simp [hcovered, hinner]
      | boundary base => simp [hcovered, hinner]
    have hout : handles [(c.resolveMergeOperands m head inner).1] = [] :=
      handles_cons_of_ne (c.resolve_ne hop m)
    constructor
    · simp [collapse, resolveWithOperator, hm, emit, hresolve.1]
    · have hemit := c.emit_handles (c.resolveMergeOperands m head inner).1
        (pending ++ (c.resolveMergeOperands m head inner).2.1)
        (c.resolveMergeOperands m head inner).2.2
      rw [hout, handles_append, append_eq_nil_iff] at hemit
      refine List.Perm.of_eq ?_
      rw [handles_cons_of_ne hne]
      simp only [collapse, collapseDropped, resolveWithOperator, hm, handles_append, hemit.1,
        hemit.2, append_nil, nil_append, handles_nil]
      exact hresolve.2

omit [LinearOrder K] in
theorem silent_accounted (hne : head.valueType ≠ .indirection)
    (h : handles dropped ++ handles inner' = handles inner) :
    (⟨none, pending, inner'⟩ : Turn K V).Accounted dropped head pending inner := by
  refine ⟨rfl, List.Perm.of_eq ?_⟩
  rw [handles_cons_of_ne hne]
  simpa using h

theorem drain_handles (k : K) (inner : List (InternalValue K V)) :
    handles (drainDropped k inner) ++ handles (drainKey k inner) = handles inner := by
  rw [← handles_append, drain_append]

theorem turnLast_accounted :
    (c.turnLast head pending inner).Accounted (c.turnLastDropped head inner) head pending inner := by
  by_cases hevict : (head.isTombstone && c.evictTombstones) = true
  · have hne : head.valueType ≠ .indirection := by
      intro hind
      simp [InternalValue.isTombstone, ValueType.isTombstone, hind] at hevict
    rw [turnLast, turnLastDropped, if_pos hevict, if_pos hevict]
    exact silent_accounted hne rfl
  · rw [turnLast, turnLastDropped, if_neg hevict, if_neg hevict]
    by_cases hfold : (head.isMergeOperand && decide (head.seqno < c.gcSeqnoThreshold)) = true
    · rw [if_pos hfold, if_pos hfold]
      exact collapse_accounted (Bool.and_eq_true_iff.1 hfold).1
    · rw [if_neg hfold, if_neg hfold]
      exact emit_head_accounted

theorem turnShadowing_accounted (peeked : InternalValue K V) :
    (c.turnShadowing head peeked pending inner).Accounted (c.turnShadowingDropped head peeked inner)
      head pending inner := by
  unfold turnShadowing turnShadowingDropped
  split
  case isTrue htomb => exact silent_accounted (by simp [htomb.1]) (drain_handles _ _)
  split
  case isTrue hweak => exact silent_accounted (by simp [hweak.1]) (drain_handles _ _)
  split
  case isFalse => exact emit_head_accounted
  split
  case isTrue hop =>
    split
    · exact collapse_accounted hop
    · exact emit_head_accounted
  split
  · exact emit_accounted (drain_handles _ _)
  · exact emit_head_accounted

theorem turn_accounted :
    (c.turn head pending inner).Accounted (c.turnDropped head inner) head pending inner := by
  cases inner with
  | nil => exact turnLast_accounted
  | cons peeked inner =>
    by_cases hk : peeked.userKey = head.userKey
    · simp only [turn, turnDropped, if_pos hk]
      exact turnShadowing_accounted peeked
    · simp only [turn, turnDropped, if_neg hk]
      exact turnLast_accounted

variable {t : Turn K V}

omit [LinearOrder K] in
theorem Turn.Accounted.state (h : t.Accounted dropped head pending inner) :
    (handles (t.out.toList ++ dropped) ++ handles (t.pending ++ t.inner)).Perm
      (handles (head :: pending ++ inner)) := by
  have hstate : handles (head :: pending ++ inner) =
      handles [head] ++ (handles pending ++ handles inner) := by
    rw [← handles_append, ← handles_append]
    rfl
  rw [hstate, handles_append t.pending, h.pending]
  refine (perm_append_comm_assoc _ _ _).trans ?_
  exact (h.rest.append_left _).trans (perm_append_comm_assoc _ _ _)

theorem nextTurn_accounted (h : c.nextTurn pending inner = some t) :
    (handles (t.out.toList ++ c.nextDropped pending inner) ++ handles (t.pending ++ t.inner)).Perm
      (handles (pending ++ inner)) := by
  cases pending with
  | cons head pending =>
    cases h
    exact turn_accounted.state
  | nil =>
    cases inner with
    | nil => cases h
    | cons head inner =>
      cases h
      exact (@turn_accounted _ _ _ c head [] inner).state

theorem runFuel_accounted (turns : ℕ) (pending inner : List (InternalValue K V)) :
    (handles (c.runFuel turns pending inner) ++ (handles (c.droppedFuel turns pending inner) ++
      handles ((c.afterTurns turns pending inner).1 ++ (c.afterTurns turns pending inner).2))).Perm
      (handles (pending ++ inner)) := by
  induction turns generalizing pending inner with
  | zero => exact List.Perm.refl _
  | succ turns ih =>
    cases hturn : c.nextTurn pending inner with
    | none => simp [runFuel, droppedFuel, afterTurns, hturn]
    | some t =>
      have hstep := nextTurn_accounted hturn
      have hrest := (ih t.pending t.inner).append_left
        (handles (t.out.toList ++ c.nextDropped pending inner))
      refine List.Perm.trans ?_ (hrest.trans hstep)
      simp only [runFuel, droppedFuel, afterTurns, hturn, handles_append, append_assoc]
      exact (perm_append_comm_assoc _ _ _).append_left _

/-- Whenever a stream is stopped, each blob handle it has taken from its input and no longer holds
was either emitted or reported, once, and none was both. -/
theorem handle_reported_once [DecidableEq V] (turns : ℕ) (input : List (InternalValue K V))
    (e : InternalValue K V) (he : e.valueType = .indirection) :
    input.count e = (c.runFuel turns [] input).count e + (c.droppedFuel turns [] input).count e +
      ((c.afterTurns turns [] input).1 ++ (c.afterTurns turns [] input).2).count e := by
  have hcount : ∀ es : List (InternalValue K V), (handles es).count e = es.count e :=
    fun es => count_filter (by simpa using he)
  have hperm := (c.runFuel_accounted turns [] input).count_eq e
  rw [count_append, count_append, hcount, hcount, hcount, hcount, nil_append]
    at hperm
  omega

def operandOverHandles : List (InternalValue ℕ (List ℕ)) :=
  [⟨1, 7, .mergeOperand, [9]⟩, ⟨1, 5, .indirection, [1]⟩, ⟨1, 3, .indirection, [2]⟩]

def foldingConfig : StreamConfig ℕ (List ℕ) where
  gcSeqnoThreshold := 10
  evictTombstones := false
  mergeOperator := some ⟨fun _ base operands => base.getD [] ++ operands.flatten⟩
  rtApply := []

theorem operandOverHandles_reported :
    foldingConfig.dropped operandOverHandles = operandOverHandles.drop 2 ∧
      operandOverHandles.count ⟨1, 3, .indirection, [2]⟩ =
        (foldingConfig.runFuel 3 [] operandOverHandles).count ⟨1, 3, .indirection, [2]⟩ +
          (foldingConfig.droppedFuel 3 [] operandOverHandles).count ⟨1, 3, .indirection, [2]⟩ +
          ((foldingConfig.afterTurns 3 [] operandOverHandles).1 ++
            (foldingConfig.afterTurns 3 [] operandOverHandles).2).count ⟨1, 3, .indirection, [2]⟩ :=
  ⟨rfl, handle_reported_once 3 operandOverHandles _ rfl⟩

end Handles

end LsmTree.StreamConfig
