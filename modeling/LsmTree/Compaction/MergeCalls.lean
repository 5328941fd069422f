import LsmTree.Compaction.Stream
import LsmTree.Read.MvccIterator

/-! The arguments that the merge operator is called with: by a scan from either end, and by the
fold of a flush or a compaction. -/
namespace LsmTree

open DoubleEnded List

variable {I K V : Type*} [LinearOrder K]

/-- The undeleted operands over the newest base, oldest first, and the base if it is a live value.
-/
structure MergeCall.Sound (deleted : InternalValue K V → Bool) (es : List (InternalValue K V))
    (c : MergeCall K V) : Prop where
  nonempty : c.operands ≠ []
  ascending : c.operands.Pairwise fun a b => a.seqno ≤ b.seqno
  operands : c.operands = ((es.takeWhile (·.isMergeOperand)).filter (!deleted ·)).reverse
  base : c.baseValue = ((es.dropWhile (·.isMergeOperand)).head?.filter fun b =>
    !deleted b && decide (b.valueType = .value)).map (·.value)

namespace StreamConfig

section Model

variable (c : StreamConfig K V)

def covers (e : InternalValue K V) : Bool := c.coveredByAppliedTombstone e.userKey e.seqno

/-- The call of `resolve_merge_operands`; there is none over a blob handle. -/
def resolveCall (head : InternalValue K V) (inner : List (InternalValue K V)) :
    Option (MergeCall K V) :=
  let r := c.collectOperands head.userKey inner
  let operands := ((head :: r.1).filter (!c.covers ·)).reverse
  match r.2.1 with
  | .indirection => none
  | .exhausted => some ⟨head.userKey, none, operands⟩
  | .boundary base => some ⟨head.userKey, base, operands⟩

def collapseCall (head : InternalValue K V) (inner : List (InternalValue K V)) :
    Option (MergeCall K V) :=
  match c.mergeOperator with
  | none => none
  | some _ => c.resolveCall head inner

def turnLastCall (head : InternalValue K V) (inner : List (InternalValue K V)) :
    Option (MergeCall K V) :=
  if head.isTombstone && c.evictTombstones then none
  else if head.isMergeOperand && decide (head.seqno < c.gcSeqnoThreshold) then
    c.collapseCall head inner
  else none

def turnShadowingCall (head peeked : InternalValue K V) (inner : List (InternalValue K V)) :
    Option (MergeCall K V) :=
  if head.valueType = .tombstone ∧ c.evictTombstones = true ∧ head.seqno < c.gcSeqnoThreshold then
    none
  else if head.valueType = .weakTombstone ∧ peeked.valueType = .value ∧
      head.seqno < c.gcSeqnoThreshold then
    none
  else if peeked.seqno < c.gcSeqnoThreshold then
    if head.isMergeOperand then
      if head.seqno < c.gcSeqnoThreshold then c.collapseCall head inner else none
    else none
  else none

def turnCall (head : InternalValue K V) (inner : List (InternalValue K V)) :
    Option (MergeCall K V) :=
  match inner with
  | [] => c.turnLastCall head inner
  | peeked :: _ =>
    if peeked.userKey = head.userKey then c.turnShadowingCall head peeked inner
    else c.turnLastCall head inner

def nextCall : List (InternalValue K V) → List (InternalValue K V) → Option (MergeCall K V)
  | head :: _, inner => c.turnCall head inner
  | [], head :: inner => c.turnCall head inner
  | [], [] => none

def callsFuel : ℕ → List (InternalValue K V) → List (InternalValue K V) → List (MergeCall K V)
  | 0, _, _ => []
  | fuel + 1, pending, inner =>
    match c.nextTurn pending inner with
    | none => []
    | some t => (c.nextCall pending inner).toList ++ callsFuel fuel t.pending t.inner

def mergeCalls (input : List (InternalValue K V)) : List (MergeCall K V) :=
  c.callsFuel input.length [] input

def below (k : K) (es : List (InternalValue K V)) : List (InternalValue K V) :=
  es.filter fun e => e.userKey = k ∧ e.seqno < c.gcSeqnoThreshold

def foldCall (k : K) (es : List (InternalValue K V)) : Option (MergeCall K V) :=
  let operands := ((es.takeWhile (·.isMergeOperand)).filter (!c.covers ·)).reverse
  if c.mergeOperator.isNone || !es.head?.any (·.isMergeOperand) then none
  else match es.dropWhile (·.isMergeOperand) with
    | [] => some ⟨k, none, operands⟩
    | b :: _ =>
      match b.valueType with
      | .indirection => none
      | .value => some ⟨k, if c.covers b then none else some b.value, operands⟩
      | _ => some ⟨k, none, operands⟩

end Model

section Turns

variable {c : StreamConfig K V} {head : InternalValue K V}
  {pending inner run tail : List (InternalValue K V)} {k : K}

theorem foldCall_nil : c.foldCall k [] = none := by simp [foldCall]

variable {e : InternalValue K V}

theorem foldCall_of_not_operand (h : e.isMergeOperand = false) :
    c.foldCall k (e :: inner) = none := by simp [foldCall, h]

theorem foldCall_of_none (h : c.mergeOperator = none) : c.foldCall k inner = none := by
  simp [foldCall, h]

theorem drainKey_cut (hrun : ∀ e ∈ run, e.userKey = k) (htail : ∀ e ∈ tail, k < e.userKey) :
    drainKey k (run ++ tail) = tail := by
  rw [drainKey, dropWhile_append_of_pos fun e he => by simpa using hrun e he]
  cases tail with
  | nil => rfl
  | cons e tail =>
    rw [dropWhile_cons_of_neg]
    simpa using (htail e mem_cons_self).ne'

def endOf (c : StreamConfig K V) : List (InternalValue K V) → LoopEnd V
  | [] => .exhausted
  | b :: _ =>
    match b.valueType with
    | .indirection => .indirection
    | .value => .boundary (if c.covers b then none else some b.value)
    | _ => .boundary none

/-- What the operand loop leaves: everything from a blob handle on, else the other keys. -/
def leftOf (tail : List (InternalValue K V)) : List (InternalValue K V) → List (InternalValue K V)
  | [] => tail
  | b :: bs => if b.valueType = .indirection then b :: bs ++ tail else tail

theorem collectOperands_cut (hrun : ∀ e ∈ run, e.userKey = k)
    (htail : ∀ e ∈ tail, k < e.userKey) :
    c.collectOperands k (run ++ tail) = (run.takeWhile (·.isMergeOperand),
      c.endOf (run.dropWhile (·.isMergeOperand)),
      leftOf tail (run.dropWhile (·.isMergeOperand))) := by
  induction run with
  | nil =>
    cases tail with
    | nil => rfl
    | cons e tail =>
      have hne := (htail e mem_cons_self).ne'
      simp [collectOperands, hne, endOf, leftOf]
  | cons e run ih =>
    obtain ⟨he, hrun⟩ := forall_mem_cons.1 hrun
    have hdrain := drainKey_cut hrun htail
    rw [cons_append, collectOperands, if_pos he]
    cases hv : e.valueType with
    | mergeOperand =>
      have hop : e.isMergeOperand = true := by simp [InternalValue.isMergeOperand, hv]
      rw [ih hrun, takeWhile_cons_of_pos hop, dropWhile_cons_of_pos hop]
    | value => simp [InternalValue.isMergeOperand, hv, endOf, leftOf, covers, he, hdrain]
    | indirection => simp [InternalValue.isMergeOperand, hv, endOf, leftOf]
    | tombstone | weakTombstone =>
      simp [InternalValue.isMergeOperand, hv, endOf, leftOf, hdrain]

structure Cut (head : InternalValue K V) (inner run tail : List (InternalValue K V)) : Prop where
  split : inner = run ++ tail
  run : ∀ e ∈ run, e.userKey = head.userKey ∧ e.seqno ≤ head.seqno
  tail : ∀ e ∈ tail, head.userKey < e.userKey

theorem exists_cut (hs : (head :: inner).Pairwise fun a b => a.le b = true) :
    ∃ run tail, Cut head inner run tail := by
  obtain ⟨hhead, hs⟩ := pairwise_cons.1 hs
  refine ⟨inner.takeWhile (·.userKey = head.userKey), inner.dropWhile (·.userKey = head.userKey),
    takeWhile_append_dropWhile.symm, fun e he => ?_, fun e he => ?_⟩
  · have hkey : e.userKey = head.userKey := by simpa using mem_takeWhile_imp he
    refine ⟨hkey, ?_⟩
    rcases InternalValue.le_iff.1 (hhead e ((List.takeWhile_prefix _).subset he)) with hlt | hle
    · exact absurd hkey.symm hlt.ne
    · exact hle.2
  · have hle : ∀ f ∈ inner.dropWhile (·.userKey = head.userKey), head.userKey ≤ f.userKey :=
      fun f hf => InternalValue.le_key.1 (hhead f ((dropWhile_suffix _).subset hf))
    cases htail : inner.dropWhile (·.userKey = head.userKey) with
    | nil =>
      rw [htail] at he
      cases he
    | cons f fs =>
      have hf : head.userKey < f.userKey := by
        refine lt_of_le_of_ne (hle f (by rw [htail]; exact mem_cons_self)) fun heq => ?_
        have hne := head_dropWhile_not (fun e : InternalValue K V => e.userKey = head.userKey)
          (by rw [htail]; exact cons_ne_nil f fs)
        simp only [htail, head_cons] at hne
        exact of_decide_eq_false hne heq.symm
      rw [htail] at he
      rcases mem_cons.1 he with rfl | he
      · exact hf
      · have hsorted := hs.sublist (dropWhile_sublist (·.userKey = head.userKey))
        rw [htail] at hsorted
        exact hf.trans_le (InternalValue.le_key.1 ((pairwise_cons.1 hsorted).1 e he))

namespace Cut

variable (h : Cut head inner run tail)
include h

theorem below_tail : c.below head.userKey tail = [] := by
  refine filter_eq_nil_iff.2 fun e he => ?_
  simp [(h.tail e he).ne']

theorem below_other {k : K} (hk : k ≠ head.userKey) :
    c.below k (head :: inner) = c.below k tail := by
  have hrun : run.filter (fun e => decide (e.userKey = k ∧ e.seqno < c.gcSeqnoThreshold)) = [] := by
    refine filter_eq_nil_iff.2 fun e he => ?_
    simp [(h.run e he).1, hk.symm]
  rw [below, filter_cons_of_neg (by simp [hk.symm]), h.split, filter_append, hrun]
  rfl

theorem below_inner_other {k : K} (hk : k ≠ head.userKey) :
    c.below k inner = c.below k tail := by
  rw [← h.below_other hk, below, below, filter_cons_of_neg (by simp [hk.symm])]

theorem below_own (hw : head.seqno < c.gcSeqnoThreshold) :
    c.below head.userKey (head :: inner) = head :: run := by
  have hrun : run.filter (fun e =>
      decide (e.userKey = head.userKey ∧ e.seqno < c.gcSeqnoThreshold)) = run := by
    refine filter_eq_self.2 fun e he => ?_
    have := h.run e he
    simp [this.1]
    omega
  have htail := h.below_tail (c := c)
  rw [below, filter_cons_of_pos (by simp [hw]), h.split, filter_append, hrun]
  rw [below] at htail
  rw [htail, append_nil]

end Cut

/-- What a turn does to the calls still to come: it makes the one of its key or leaves it. -/
structure Turn.Folds (c : StreamConfig K V) (t : Turn K V) (call : Option (MergeCall K V))
    (head : InternalValue K V) (inner : List (InternalValue K V)) : Prop where
  others : ∀ k, k ≠ head.userKey → c.below k (head :: inner) = c.below k t.inner
  own : c.foldCall head.userKey (c.below head.userKey (head :: inner)) =
    call.or (c.foldCall head.userKey (c.below head.userKey t.inner))
  once : call ≠ none → c.below head.userKey t.inner = []

variable {t : Turn K V}

theorem Turn.Folds.iff {call : Option (MergeCall K V)} (h : t.Folds c call head inner)
    (x : MergeCall K V) :
    (∃ k, c.foldCall k (c.below k (head :: inner)) = some x) ↔
      call = some x ∨ ∃ k, c.foldCall k (c.below k t.inner) = some x := by
  constructor
  · rintro ⟨k, hk⟩
    by_cases heq : k = head.userKey
    · subst heq
      rw [h.own] at hk
      cases call with
      | none => exact Or.inr ⟨_, hk⟩
      | some y => exact Or.inl hk
    · rw [h.others k heq] at hk
      exact Or.inr ⟨k, hk⟩
  · rintro (rfl | ⟨k, hk⟩)
    · exact ⟨head.userKey, h.own⟩
    · by_cases heq : k = head.userKey
      · subst heq
        cases hcall : call with
        | none => exact ⟨_, by rw [h.own, hcall, hk]; rfl⟩
        | some y =>
          rw [h.once (by simp [hcall]), foldCall_nil] at hk
          cases hk
      · exact ⟨k, by rw [h.others k heq, hk]⟩

theorem folds_above (hw : c.gcSeqnoThreshold ≤ head.seqno) (ht : t.inner = inner) :
    t.Folds c none head inner := by
  have hskip : ∀ k, c.below k (head :: inner) = c.below k inner :=
    fun k => filter_cons_of_neg (by simp [Nat.not_lt.2 hw])
  exact ⟨fun k _ => by rw [hskip, ht], by rw [hskip, ht]; rfl, fun hne => absurd rfl hne⟩

theorem Cut.folds_passed (h : Cut head inner run tail) (hw : head.seqno < c.gcSeqnoThreshold)
    (hop : head.isMergeOperand = false) (ht : t.inner = tail) : t.Folds c none head inner := by
  refine ⟨fun k hk => by rw [ht, h.below_other hk], ?_, fun hne => absurd rfl hne⟩
  rw [ht, h.below_own hw, h.below_tail, foldCall_of_not_operand hop, foldCall_nil]
  rfl

structure OverHandle (c : StreamConfig K V) (pending inner : List (InternalValue K V)) : Prop where
  operands : ∀ p ∈ pending, p.isMergeOperand = true ∧ p.seqno < c.gcSeqnoThreshold
  handle : ∃ b rest, inner = b :: rest ∧ b.valueType = .indirection ∧
    b.seqno < c.gcSeqnoThreshold ∧ ∀ p ∈ pending, p.userKey = b.userKey

theorem Cut.resolveCall_eq (h : Cut head inner run tail) (hop : head.isMergeOperand = true)
    (hm : c.mergeOperator.isSome = true) :
    c.resolveCall head inner = c.foldCall head.userKey (head :: run) := by
  have hcollect := collectOperands_cut (c := c) (fun e he => (h.run e he).1) h.tail
  rw [← h.split] at hcollect
  have hnone : c.mergeOperator.isNone = false := by simpa using hm
  simp only [resolveCall, hcollect, foldCall, hnone, hop, head?_cons, Option.any_some,
    takeWhile_cons_of_pos, dropWhile_cons_of_pos]
  cases run.dropWhile (·.isMergeOperand) with
  | nil => rfl
  | cons b bs =>
    simp only [endOf]
    cases b.valueType <;> rfl

theorem Cut.folds_all (h : Cut head inner run tail) (hw : head.seqno < c.gcSeqnoThreshold)
    (ht : t.inner = tail) :
    t.Folds c (c.foldCall head.userKey (head :: run)) head inner := by
  refine ⟨fun k hk => by rw [ht, h.below_other hk], ?_, fun _ => by rw [ht, h.below_tail]⟩
  rw [ht, h.below_own hw, h.below_tail, foldCall_nil, Option.or_none]

theorem Cut.folds_handle {b : InternalValue K V} {bs : List (InternalValue K V)}
    (h : Cut head inner run tail) (hw : head.seqno < c.gcSeqnoThreshold)
    (hunder : run.dropWhile (·.isMergeOperand) = b :: bs) (hb : b.valueType = .indirection)
    (ht : t.inner = b :: bs ++ tail) :
    t.Folds c (c.foldCall head.userKey (head :: run)) head inner := by
  have hsub : ∀ e ∈ b :: bs, e ∈ run := fun e he => (dropWhile_suffix _).subset (hunder ▸ he)
  have hbrun := h.run b (hsub b mem_cons_self)
  have hbop : b.isMergeOperand = false := by simp [InternalValue.isMergeOperand, hb]
  have hcall : c.foldCall head.userKey (head :: run) = none := by
    by_cases hop : head.isMergeOperand = true
    · simp [foldCall, hop, hunder, hb]
    · exact foldCall_of_not_operand (by simpa using hop)
  have hleft : c.foldCall head.userKey (c.below head.userKey t.inner) = none := by
    rw [ht, cons_append, below, filter_cons_of_pos]
    · exact foldCall_of_not_operand hbop
    · simp only [hbrun.1, true_and, decide_eq_true_eq]
      omega
  refine ⟨fun k hk => ?_, ?_, fun hne => absurd hcall hne⟩
  · have hcut : Cut { head with seqno := b.seqno + head.seqno } (b :: bs ++ tail) (b :: bs) tail :=
      ⟨rfl, fun e he => ⟨(h.run e (hsub e he)).1, Nat.le_trans (h.run e (hsub e he)).2 (by simp)⟩, h.tail⟩
    rw [h.below_other hk, ht, hcut.below_inner_other hk]
  · rw [h.below_own hw, hcall, hleft]
    rfl

theorem Cut.folds_collapse (h : Cut head inner run tail) (hw : head.seqno < c.gcSeqnoThreshold)
    (hop : head.isMergeOperand = true) :
    (c.collapse head [] inner).Folds c (c.collapseCall head inner) head inner ∧
      ((c.collapse head [] inner).pending = [] ∨
        c.OverHandle (c.collapse head [] inner).pending (c.collapse head [] inner).inner) := by
  have hcollect := collectOperands_cut (c := c) (fun e he => (h.run e he).1) h.tail
  rw [← h.split] at hcollect
  cases hm : c.mergeOperator with
  | none =>
    have hinner : (c.collapse head [] inner).inner = inner := by
      simp [collapse, resolveWithOperator, hm, emit]
    have hcall : c.collapseCall head inner = none := by simp [collapseCall, hm]
    rw [hcall]
    refine ⟨⟨fun k hk => ?_, ?_, fun hne => absurd rfl hne⟩, Or.inl ?_⟩
    · rw [hinner, h.below_other hk, h.below_inner_other hk]
    · rw [foldCall_of_none hm, foldCall_of_none hm]
      rfl
    · simp [collapse, resolveWithOperator, hm, emit]
  | some m =>
    have hcall : c.collapseCall head inner = c.foldCall head.userKey (head :: run) := by
      rw [← h.resolveCall_eq hop (by simp [hm])]
      simp [collapseCall, hm]
    rw [hcall]
    cases hunder : run.dropWhile (·.isMergeOperand) with
    | nil =>
      refine ⟨h.folds_all hw ?_, Or.inl ?_⟩ <;>
        simp [collapse, resolveWithOperator, hm, emit, resolveMergeOperands, hcollect, hunder, endOf,
          leftOf]
    | cons b bs =>
      by_cases hb : b.valueType = .indirection
      · have hinner : (c.collapse head [] inner).inner = b :: bs ++ tail := by
          simp [collapse, resolveWithOperator, hm, emit, resolveMergeOperands, hcollect, hunder,
            endOf, leftOf, hb]
        have hpending : (c.collapse head [] inner).pending = run.takeWhile (·.isMergeOperand) := by
          simp [collapse, resolveWithOperator, hm, emit, resolveMergeOperands, hcollect, hunder,
            endOf, hb]
        refine ⟨h.folds_handle hw hunder hb hinner, Or.inr ?_⟩
        rw [hinner, hpending]
        have hbrun := h.run b ((dropWhile_suffix _).subset (hunder ▸ mem_cons_self))
        have hprun := fun p hp => h.run p ((List.takeWhile_prefix (·.isMergeOperand)).subset hp)
        refine ⟨fun p hp => ⟨mem_takeWhile_imp hp, ?_⟩, b, bs ++ tail, rfl, hb, ?_, ?_⟩
        · have := (hprun p hp).2
          omega
        · omega
        · exact fun p hp => (hprun p hp).1.trans hbrun.1.symm
      · obtain ⟨base, hend⟩ : ∃ base, c.endOf (b :: bs) = .boundary base := by
          simp only [endOf]
          cases hv : b.valueType with
          | indirection => exact absurd hv hb
          | _ => exact ⟨_, rfl⟩
        refine ⟨h.folds_all hw ?_, Or.inl ?_⟩ <;>
          simp [collapse, resolveWithOperator, hm, emit, resolveMergeOperands, hcollect, hunder, hend,
            leftOf, hb]

theorem Cut.folds_emit (h : Cut head inner run tail) (ht : t.inner = inner)
    (hpending : t.pending = [])
    (hlast : c.gcSeqnoThreshold ≤ head.seqno ∨ (run = [] ∧ head.isMergeOperand = false)) :
    t.Folds c none head inner ∧ (t.pending = [] ∨ c.OverHandle t.pending t.inner) := by
  refine ⟨?_, Or.inl hpending⟩
  by_cases hw : c.gcSeqnoThreshold ≤ head.seqno
  · exact folds_above hw ht
  · obtain ⟨rfl, hop⟩ := hlast.resolve_left hw
    exact h.folds_passed (Nat.lt_of_not_le hw) hop (ht.trans h.split)

theorem Cut.turnLast_folds (h : Cut head inner [] tail) :
    (c.turnLast head [] inner).Folds c (c.turnLastCall head inner) head inner ∧
      ((c.turnLast head [] inner).pending = [] ∨
        c.OverHandle (c.turnLast head [] inner).pending (c.turnLast head [] inner).inner) := by
  unfold turnLast turnLastCall
  by_cases hevict : (head.isTombstone && c.evictTombstones) = true
  · rw [if_pos hevict, if_pos hevict]
    have htomb := (Bool.and_eq_true_iff.1 hevict).1
    exact h.folds_emit rfl rfl (Or.inr ⟨rfl, InternalValue.not_operand_of_isTombstone htomb⟩)
  · rw [if_neg hevict, if_neg hevict]
    by_cases hfold : (head.isMergeOperand && decide (head.seqno < c.gcSeqnoThreshold)) = true
    · rw [if_pos hfold, if_pos hfold]
      rw [Bool.and_eq_true_iff, decide_eq_true_eq] at hfold
      exact h.folds_collapse hfold.2 hfold.1
    · rw [if_neg hfold, if_neg hfold]
      refine h.folds_emit rfl rfl ?_
      by_cases hw : c.gcSeqnoThreshold ≤ head.seqno
      · exact Or.inl hw
      · refine Or.inr ⟨rfl, ?_⟩
        simpa [Nat.lt_of_not_le hw] using hfold

theorem Cut.turnShadowing_folds {peeked : InternalValue K V} (h : Cut head inner run tail)
    (hpeeked : peeked.seqno ≤ head.seqno) :
    (c.turnShadowing head peeked [] inner).Folds c (c.turnShadowingCall head peeked inner) head inner ∧
      ((c.turnShadowing head peeked [] inner).pending = [] ∨
        c.OverHandle (c.turnShadowing head peeked [] inner).pending
          (c.turnShadowing head peeked [] inner).inner) := by
  have hdrain : drainKey head.userKey inner = tail := by
    rw [h.split, drainKey_cut (fun e he => (h.run e he).1) h.tail]
  have hpass : ∀ out, head.seqno < c.gcSeqnoThreshold → head.isMergeOperand = false →
      (⟨out, [], drainKey head.userKey inner⟩ : Turn K V).Folds c none head inner := fun out hw hop =>
    h.folds_passed hw hop hdrain
  unfold turnShadowing turnShadowingCall
  split
  case isTrue htomb =>
    refine ⟨hpass none htomb.2.2 (InternalValue.not_operand_of_isTombstone ?_), Or.inl rfl⟩
    simp [InternalValue.isTombstone, htomb.1, ValueType.isTombstone]
  split
  case isTrue hweak =>
    refine ⟨hpass none hweak.2.2 (InternalValue.not_operand_of_isTombstone ?_), Or.inl rfl⟩
    simp [InternalValue.isTombstone, hweak.1, ValueType.isTombstone]
  split
  case isFalse hp => exact h.folds_emit rfl rfl (Or.inl (by omega))
  by_cases hw : head.seqno < c.gcSeqnoThreshold
  · simp only [if_pos hw]
    split
    case isTrue hop => exact h.folds_collapse hw hop
    case isFalse hop => exact ⟨hpass _ hw (by simpa using hop), Or.inl rfl⟩
  · simp only [if_neg hw, ite_self]
    exact h.folds_emit rfl rfl (Or.inl (Nat.not_lt.1 hw))

theorem turn_folds (hs : (head :: inner).Pairwise fun a b => a.le b = true) :
    (c.turn head [] inner).Folds c (c.turnCall head inner) head inner ∧
      ((c.turn head [] inner).pending = [] ∨
        c.OverHandle (c.turn head [] inner).pending (c.turn head [] inner).inner) := by
  obtain ⟨run, tail, h⟩ := exists_cut hs
  cases inner with
  | nil =>
    obtain ⟨rfl, rfl⟩ := append_eq_nil_iff.1 h.split.symm
    exact h.turnLast_folds
  | cons peeked rest =>
    by_cases hk : peeked.userKey = head.userKey
    · simp only [turn, turnCall, if_pos hk]
      refine h.turnShadowing_folds ?_
      have hle := InternalValue.le_iff.1 ((pairwise_cons.1 hs).1 peeked mem_cons_self)
      exact (hle.resolve_left fun hlt => absurd hk hlt.ne').2
    · simp only [turn, turnCall, if_neg hk]
      obtain rfl : run = [] := by
        cases run with
        | nil => rfl
        | cons e run =>
          have hsplit := h.split
          rw [cons_append, List.cons.injEq] at hsplit
          exact absurd (hsplit.1 ▸ (h.run e mem_cons_self).1) hk
      exact h.turnLast_folds

theorem OverHandle.turn_eq (h : c.OverHandle (head :: pending) inner) :
    c.turnCall head inner = none ∧ (c.turn head pending inner).pending = pending ∧
      (c.turn head pending inner).inner = inner := by
  obtain ⟨b, rest, rfl, hb, hbw, hkeys⟩ := h.handle
  obtain ⟨hop, hw⟩ := h.operands head mem_cons_self
  have hkey := hkeys head mem_cons_self
  have hty : head.valueType = .mergeOperand := by simpa [InternalValue.isMergeOperand] using hop
  have hcollect : c.collectOperands head.userKey (b :: rest) = ([], .indirection, b :: rest) := by
    simp [collectOperands, hkey, hb]
  simp only [turnCall, turn, hkey, if_true, turnShadowingCall, turnShadowing, hty, hbw, hw, hop,
    collapseCall, collapse, resolveWithOperator]
  cases c.mergeOperator with
  | none => simp [emit]
  | some m => simp [emit, resolveCall, resolveMergeOperands, hcollect]

omit [LinearOrder K] in
theorem OverHandle.rest (h : c.OverHandle (head :: pending) inner) :
    pending = [] ∨ c.OverHandle pending inner := by
  obtain ⟨b, rest, hinner, hb, hbw, hkeys⟩ := h.handle
  exact Or.inr ⟨fun p hp => h.operands p (mem_cons_of_mem head hp), b, rest, hinner, hb, hbw,
    fun p hp => hkeys p (mem_cons_of_mem head hp)⟩

theorem mem_callsFuel_iff (fuel : ℕ) (pending inner : List (InternalValue K V))
    (hfuel : pending.length + inner.length ≤ fuel)
    (hs : inner.Pairwise fun a b => a.le b = true)
    (hover : pending = [] ∨ c.OverHandle pending inner) (x : MergeCall K V) :
    x ∈ c.callsFuel fuel pending inner ↔ ∃ k, c.foldCall k (c.below k inner) = some x := by
  induction fuel generalizing pending inner with
  | zero =>
    obtain rfl : inner = [] := length_eq_zero_iff.1 (by omega)
    simp [callsFuel, below, foldCall_nil]
  | succ fuel ih =>
    cases pending with
    | cons head pending =>
      obtain hover := hover.resolve_left (cons_ne_nil head pending)
      obtain ⟨hcall, hpending, hinner⟩ := hover.turn_eq
      have hrest := ih pending inner (by simp only [length_cons] at hfuel; omega) hs hover.rest
      simp only [callsFuel, nextTurn, nextCall, hcall, hpending, hinner, Option.toList_none,
        nil_append, hrest]
    | nil =>
      cases inner with
      | nil => simp [callsFuel, nextTurn, below, foldCall_nil]
      | cons head inner =>
        obtain ⟨hfolds, hover'⟩ := c.turn_folds hs
        have hpasses := c.turn_passes head [] inner
        have hlen := hpasses.length_le
        have hsorted : (c.turn head [] inner).inner.Pairwise fun a b => a.le b = true := by
          obtain ⟨put, -, hsub⟩ := hpasses.rest
          exact (pairwise_cons.1 hs).2.sublist ((sublist_append_right _ _).trans hsub)
        have hrest := ih (c.turn head [] inner).pending (c.turn head [] inner).inner
          (by simp only [length_cons, length_nil] at hfuel hlen; omega) hsorted hover'
        simp only [callsFuel, nextTurn, nextCall, mem_append, hrest, hfolds.iff x,
          Option.mem_toList]

variable {input : List (InternalValue K V)}

theorem mem_mergeCalls_iff (hs : input.Pairwise fun a b => a.le b = true)
    (x : MergeCall K V) :
    x ∈ c.mergeCalls input ↔ ∃ k, c.foldCall k (c.below k input) = some x :=
  mem_callsFuel_iff input.length [] input (by simp) hs (Or.inl rfl) x

theorem covers_older {f : InternalValue K V} (h : c.covers e = true) (hk : f.userKey = e.userKey)
    (hs : f.seqno ≤ e.seqno) : c.covers f = true := by
  simp only [covers, coveredByAppliedTombstone, any_eq_true, Bool.and_eq_true,
    decide_eq_true_eq] at h ⊢
  obtain ⟨rt, hrt, hc, he⟩ := h
  exact ⟨rt, hrt, by rwa [hk], by omega⟩

theorem below_pairwise (hs : input.Pairwise fun a b => a.le b = true) (k : K) :
    (c.below k input).Pairwise fun a b => a.userKey = b.userKey ∧ b.seqno ≤ a.seqno := by
  refine (hs.filter _).imp_of_mem fun {a b} ha hb hle => ?_
  have hka : a.userKey = k := (of_decide_eq_true (mem_filter.1 ha).2).1
  have hkb : b.userKey = k := (of_decide_eq_true (mem_filter.1 hb).2).1
  rcases InternalValue.le_iff.1 hle with hlt | hle
  · exact absurd (hka.trans hkb.symm) hlt.ne
  · exact hle

end Turns

end StreamConfig

omit [LinearOrder K] in
theorem MergeCall.ascending_of {es : List (InternalValue K V)} (p : InternalValue K V → Bool)
    (hs : es.Pairwise fun a b => b.seqno ≤ a.seqno) :
    (((es.takeWhile (·.isMergeOperand)).filter p).reverse).Pairwise fun a b => a.seqno ≤ b.seqno :=
  pairwise_reverse.2 ((hs.sublist (takeWhile_sublist _)).filter _)

namespace StreamConfig

variable {c : StreamConfig K V} {input : List (InternalValue K V)} {k : K}

theorem foldCall_args {es : List (InternalValue K V)} {x : MergeCall K V}
    (hx : c.foldCall k es = some x) :
    es.head?.any (·.isMergeOperand) = true ∧ x.userKey = k ∧
      x.operands = ((es.takeWhile (·.isMergeOperand)).filter (!c.covers ·)).reverse ∧
      x.baseValue = ((es.dropWhile (·.isMergeOperand)).head?.filter fun b =>
        !c.covers b && decide (b.valueType = .value)).map (·.value) := by
  unfold foldCall at hx
  dsimp only at hx
  split at hx
  case isTrue => cases hx
  case isFalse hnone =>
    refine ⟨by simpa using (not_or.1 (fun h => hnone (Bool.or_eq_true_iff.2 h))).2, ?_⟩
    cases hunder : es.dropWhile (·.isMergeOperand) with
    | nil =>
      rw [hunder] at hx
      cases hx
      exact ⟨rfl, rfl, rfl⟩
    | cons b bs =>
      rw [hunder] at hx
      dsimp only at hx
      cases hv : b.valueType with
      | indirection =>
        rw [hv] at hx
        cases hx
      | value =>
        rw [hv] at hx
        cases hx
        refine ⟨rfl, rfl, ?_⟩
        cases hcov : c.covers b <;> simp [Option.filter, hcov, hv]
      | _ =>
        rw [hv] at hx
        cases hx
        exact ⟨rfl, rfl, by simp [Option.filter, hv]⟩

theorem foldCall_sound_iff (hs : input.Pairwise fun a b => a.le b = true)
    {x : MergeCall K V} (hx : c.foldCall k (c.below k input) = some x) :
    x.Sound c.covers (c.below k input) ↔
      ∀ e ∈ (c.below k input).head?, c.covers e = false := by
  have hpair := c.below_pairwise hs k
  obtain ⟨hhead, -, hops, hbase⟩ := foldCall_args hx
  cases hes : c.below k input with
  | nil => simp [hes] at hhead
  | cons e es =>
    rw [hes] at hpair hhead hops hbase
    have hop : e.isMergeOperand = true := by simpa using hhead
    constructor
    · intro hsound f hf
      obtain rfl : e = f := by simpa using hf
      by_contra hcov
      refine hsound.nonempty ?_
      rw [hops, reverse_eq_nil_iff, filter_eq_nil_iff]
      intro g hg
      have hcg : c.covers g = true := by
        rcases mem_cons.1 ((List.takeWhile_prefix _).subset hg) with rfl | hg
        · simpa using hcov
        · have hge := (pairwise_cons.1 hpair).1 g hg
          exact covers_older (by simpa using hcov) hge.1.symm hge.2
      simp [hcg]
    · intro hlive
      refine ⟨?_, ?_, hops, hbase⟩
      · have hmem : e ∈ x.operands := by
          rw [hops, mem_reverse, mem_filter, takeWhile_cons_of_pos hop]
          exact ⟨mem_cons_self, by simpa using hlive e rfl⟩
        exact ne_nil_of_mem hmem
      · rw [hops]
        exact MergeCall.ascending_of _ (hpair.imp And.right)

end StreamConfig

namespace MvccRules

variable (m : MvccRules K V)

def walkCall (newest : InternalValue K V) (r : List (InternalValue K V) × MergeEnd V) :
    Option (MergeCall K V) :=
  if m.mergeOperator.isSome && newest.isMergeOperand && !m.suppresses newest then
    r.2.call newest.userKey r.1
  else none

section Model

variable [Iter I (InternalValue K V)]

def nextCall (inner : Peekable I (InternalValue K V)) : Option (MergeCall K V) :=
  match inner.next with
  | (none, _) => none
  | (some head, inner) =>
    let r := (m.collect head.userKey (Iter.bound inner + 1) inner).1
    m.walkCall head (head :: r.1, r.2)

def nextBackCall (inner : Peekable I (InternalValue K V)) : Option (MergeCall K V) :=
  (m.gatherBack (Iter.bound inner + 1) [] inner).1.bind fun g =>
    m.walkCall g.2 (m.walk (g.1 ++ [g.2]).reverse)

end Model

variable {m} {e : InternalValue K V} {es : List (InternalValue K V)}

theorem walk_of_live (he : (e.isMergeOperand && !m.suppresses e) = true) :
    m.walk (e :: es) = (e :: (m.walk es).1, (m.walk es).2) := by
  rw [walk, stopAt_eq_none_iff.2 (by simpa using he)]

theorem walkCall_congr {r r' : List (InternalValue K V) × MergeEnd V}
    (h : m.mergeOperator.isSome = true → (e.isMergeOperand && !m.suppresses e) = true → r = r') :
    m.walkCall e r = m.walkCall e r' := by
  unfold walkCall
  split
  case isTrue hc =>
    rw [Bool.and_assoc, Bool.and_eq_true] at hc
    rw [h hc.1 hc.2]
  case isFalse => rfl

theorem walkCall_sound {x : MergeCall K V} (hk : ∀ f ∈ es, f.userKey = e.userKey)
    (hs : (e :: es).Pairwise fun a b => a.le b = true)
    (hx : m.walkCall e (m.walk (e :: es)) = some x) :
    x.userKey = e.userKey ∧ x.Sound m.suppresses (e :: es) := by
  have hall : ∀ f ∈ e :: es, f.userKey = e.userKey := forall_mem_cons.2 ⟨rfl, hk⟩
  have hsuffix := suppresses_suffix (m := m)
    (fun a ha b hb => (hall a ha).trans (hall b hb).symm) hs
  have hdesc : (e :: es).Pairwise fun a b => b.seqno ≤ a.seqno := by
    refine hs.imp_of_mem fun {a b} ha hb hle => ?_
    rcases InternalValue.le_iff.1 hle with hlt | hle
    · exact absurd ((hall a ha).trans (hall b hb).symm) hlt.ne
    · exact hle.2
  unfold walkCall at hx
  split at hx
  case isFalse => cases hx
  case isTrue hlive =>
    simp only [Bool.and_eq_true, Bool.not_eq_true'] at hlive
    have hops := walk_fst hsuffix
    have hend := walk_snd hsuffix
    have hmem : e ∈ m.liveOperands (e :: es) := by
      rw [liveOperands, mem_reverse, mem_filter, takeWhile_cons_of_pos hlive.1.2]
      exact ⟨mem_cons_self, by simpa using hlive.2⟩
    have hsound : ∀ base, base = ((m.liveBase (e :: es)).filter fun b =>
        decide (b.valueType = .value)).map (·.value) →
        (⟨e.userKey, base, (m.walk (e :: es)).1.reverse⟩ : MergeCall K V).Sound m.suppresses
          (e :: es) := by
      intro base hbase
      refine ⟨?_, ?_, hops, ?_⟩
      · rw [hops]
        exact ne_nil_of_mem hmem
      · rw [hops]
        exact MergeCall.ascending_of _ hdesc
      · rw [hbase, liveBase, Option.filter_filter]
    cases hbase : m.liveBase (e :: es) with
    | none =>
      rw [hbase] at hend hsound
      rcases hend with hend | hend <;>
        · rw [hend] at hx
          cases hx
          exact ⟨rfl, hsound none rfl⟩
    | some b =>
      rw [hbase] at hend hsound
      simp only [EndsAt] at hend
      cases hv : b.valueType with
      | indirection =>
        simp only [hv] at hend
        rw [hend] at hx
        cases hx
      | _ =>
        simp only [hv] at hend
        rw [hend] at hx
        cases hx
        exact ⟨rfl, hsound _ (by simp [Option.filter, hv])⟩

section Loops

variable [Iter I (InternalValue K V)] {R : I → List (InternalValue K V) → Prop}
  {inner : Peekable I (InternalValue K V)} {run rest : List (InternalValue K V)}

theorem nextCall_spec (hR : Yields R) (h : inner.Holds R (e :: run ++ rest))
    (hrun : ∀ f ∈ run, f.userKey = e.userKey)
    (hrest : ∀ f ∈ rest.head?, f.userKey ≠ e.userKey) :
    m.nextCall inner = m.walkCall e (m.walk (e :: run)) := by
  obtain ⟨hhead, hinner, -⟩ := Peekable.next_spec hR.front h
  have hbound := (Peekable.yields hR).bound hinner
  rw [cons_append, tail_cons, length_append] at hbound
  obtain ⟨hwalk, -⟩ := @collect_spec I K V _ m _ R inner.next.2 e.userKey run rest
    (Iter.bound inner.next.2 + 1) hR hinner hrun hrest (by omega)
  rw [nextCall, show inner.next = (some e, inner.next.2) from Prod.ext hhead rfl]
  dsimp only
  rw [hwalk]
  exact walkCall_congr fun _ hlive => (walk_of_live hlive).symm

theorem nextBackCall_spec (hR : Yields R) (h : inner.Holds R (rest ++ e :: run))
    (hrun : ∀ f ∈ run, f.userKey = e.userKey)
    (hrest : ∀ f ∈ rest.getLast?, f.userKey ≠ e.userKey) :
    m.nextBackCall inner = m.walkCall e (m.walk (e :: run)) := by
  have hbound := (Peekable.yields hR).bound h
  rw [length_append, length_cons] at hbound
  obtain ⟨buf, hgather, hbuf, -⟩ :=
    @gatherBack_spec I K V _ m e _ R inner run rest (Iter.bound inner + 1) hR h hrun hrest
      (by omega) []
  rw [nextBackCall, hgather]
  refine walkCall_congr fun hsome _ => ?_
  simp [hbuf hsome]

end Loops

end MvccRules

namespace MvccIterator

variable [Iter I (InternalValue K V)]

def mergeCalls : List End → MvccIterator I K V → List (MergeCall K V)
  | [], _ => []
  | .front :: calls, m =>
    (m.rules.nextCall m.inner).toList ++ mergeCalls calls (Iter.next m).2
  | .back :: calls, m =>
    (m.rules.nextBackCall m.inner).toList ++ mergeCalls calls (Iter.nextBack m).2

variable {R : I → List (InternalValue K V) → Prop}

theorem mergeCalls_runs (hR : Yields R) (calls : List End) {m : MvccIterator I K V}
    {runs : List (List (InternalValue K V))} (hruns : KeyRuns runs)
    (hinner : m.inner.Holds R runs.flatten) {x : MergeCall K V} (hx : x ∈ mergeCalls calls m) :
    ∃ e es, e :: es ∈ runs ∧ m.rules.walkCall e (m.rules.walk (e :: es)) = some x := by
  induction calls generalizing m runs with
  | nil => cases hx
  | cons call calls ih =>
    cases call with
    | front =>
      rcases runs with _ | ⟨_ | ⟨e, es⟩, runs⟩
      · have hnone : m.rules.nextCall m.inner = none := by
          rw [MvccRules.nextCall, show m.inner.next = (none, m.inner.next.2) from
            Prod.ext (Peekable.next_spec hR.front hinner).1 rfl]
        rw [mergeCalls, hnone] at hx
        obtain ⟨_, _, hmem, -⟩ :=
          @ih (Iter.next m).2 [] hruns (m.rules.nextFrom_nil hR hinner).2 hx
        cases hmem
      · exact absurd mem_cons_self hruns.nonempty
      · have hcall := MvccRules.nextCall_spec (m := m.rules) hR hinner
          (hruns.key_eq mem_cons_self) hruns.head_key_ne
        have hleft := (MvccRules.nextFrom_spec hR hinner (hruns.key_eq mem_cons_self)
          hruns.head_key_ne (hruns.suffix mem_cons_self m.rules)).2
        rw [mergeCalls, hcall] at hx
        rcases mem_append.1 hx with hx | hx
        · exact ⟨e, es, mem_cons_self, Option.mem_toList.1 hx⟩
        · obtain ⟨f, fs, hmem, hf⟩ := ih (hruns.sublist (sublist_cons_self _ _)) hleft hx
          exact ⟨f, fs, mem_cons_of_mem _ hmem, hf⟩
    | back =>
      rcases eq_nil_or_concat' runs with rfl | ⟨runs, _ | ⟨e, es⟩, rfl⟩
      · obtain ⟨hgather, hleft⟩ := m.rules.gatherBack_nil hR hinner
        have hnone : m.rules.nextBackCall m.inner = none := by
          rw [MvccRules.nextBackCall, hgather]
          rfl
        rw [mergeCalls, hnone] at hx
        obtain ⟨_, _, hmem, -⟩ := @ih (Iter.nextBack m).2 [] hruns hleft hx
        cases hmem
      · exact absurd (by simp) hruns.nonempty
      · have hmem : e :: es ∈ runs ++ [e :: es] := by simp
        rw [flatten_append, flatten_singleton] at hinner
        have hcall := MvccRules.nextBackCall_spec (m := m.rules) hR hinner (hruns.key_eq hmem)
          hruns.getLast_key_ne
        have hleft := (MvccRules.nextBackFrom_spec hR hinner (hruns.key_eq hmem)
          hruns.getLast_key_ne (hruns.suffix hmem m.rules)).2
        rw [mergeCalls, hcall] at hx
        rcases mem_append.1 hx with hx | hx
        · exact ⟨e, es, hmem, Option.mem_toList.1 hx⟩
        · obtain ⟨f, fs, hf, hcallf⟩ := ih (hruns.sublist (sublist_append_left _ _)) hleft hx
          exact ⟨f, fs, mem_append_left _ hf, hcallf⟩

theorem mergeCalls_sound (hR : Yields R) (rules : MvccRules K V) {inner : I}
    {items : List (InternalValue K V)} (hinner : R inner items)
    (hs : items.Pairwise fun a b => a.le b = true) (calls : List End) :
    ∀ x ∈ mergeCalls calls (new rules inner),
      x.Sound rules.suppresses (items.filter fun e => e.userKey = x.userKey) := by
  intro x hx
  obtain ⟨runs, hruns, rfl⟩ := KeyRuns.of_sorted hs
  obtain ⟨e, es, hrun, hcall⟩ := mergeCalls_runs hR calls hruns (Peekable.holds_new hinner) hx
  obtain ⟨hkey, hsound⟩ := MvccRules.walkCall_sound (hruns.key_eq hrun)
    (hruns.newestFirst _ hrun) hcall
  rw [hkey, hruns.filter_eq hrun]
  exact hsound

end MvccIterator

/-- Every call of a scan is as it should be; those of a compaction are iff no operand that an applied
range tombstone deletes heads a fold. -/
theorem mergeCalls_sound_iff [Iter I (InternalValue K V)]
    {R : I → List (InternalValue K V) → Prop} (hR : Yields R) (rules : MvccRules K V) {inner : I}
    {items : List (InternalValue K V)} (hinner : R inner items)
    (hitems : items.Pairwise fun a b => InternalValue.le a b = true) (c : StreamConfig K V)
    {input : List (InternalValue K V)}
    (hinput : input.Pairwise fun a b => InternalValue.le a b = true) :
    (∀ calls, ∀ x ∈ MvccIterator.mergeCalls calls (.new rules inner),
      x.Sound rules.suppresses (items.filter fun e => e.userKey = x.userKey)) ∧
    ((∀ x ∈ c.mergeCalls input, x.Sound c.covers (c.below x.userKey input)) ↔
      ∀ k, (c.foldCall k (c.below k input)).isSome = true →
        ∀ e ∈ (c.below k input).head?, c.covers e = false) := by
  refine ⟨MvccIterator.mergeCalls_sound hR rules hinner hitems, ?_⟩
  constructor
  · intro h k hk
    obtain ⟨x, hx⟩ := Option.isSome_iff_exists.1 hk
    refine (StreamConfig.foldCall_sound_iff hinput hx).1 ?_
    have hsound := h x ((StreamConfig.mem_mergeCalls_iff hinput x).2 ⟨k, hx⟩)
    rwa [(StreamConfig.foldCall_args hx).2.1] at hsound
  · intro h x hx
    obtain ⟨k, hk⟩ := (StreamConfig.mem_mergeCalls_iff hinput x).1 hx
    rw [(StreamConfig.foldCall_args hk).2.1]
    exact (StreamConfig.foldCall_sound_iff hinput hk).2 (h k (by rw [hk]; rfl))

def deletingConfig : StreamConfig ℕ ℕ where
  gcSeqnoThreshold := 10
  evictTombstones := false
  mergeOperator := some ⟨fun _ base ops => base.getD 0 + ops.sum⟩
  rtApply := [⟨0, 5, 7⟩]

def operandOverDelete : List (InternalValue ℕ ℕ) := [⟨1, 8, .mergeOperand, 4⟩, ⟨1, 3, .value, 1⟩]

/-- The operand over the delete is folded alone, as it should be. -/
theorem operandOverDelete_called :
    deletingConfig.mergeCalls operandOverDelete = [⟨1, none, [⟨1, 8, .mergeOperand, 4⟩]⟩] ∧
      (∀ x ∈ deletingConfig.mergeCalls operandOverDelete,
        x.Sound deletingConfig.covers (deletingConfig.below x.userKey operandOverDelete)) ∧
      ∀ x ∈ MvccIterator.mergeCalls [.back] (.new MvccIterator.counterRules
          MvccIterator.counterItems),
        x.Sound MvccIterator.counterRules.suppresses
          (MvccIterator.counterItems.filter fun e => e.userKey = x.userKey) := by
  have hitems : MvccIterator.counterItems.Pairwise fun a b => a.le b = true := by decide
  have hinput : operandOverDelete.Pairwise fun a b => a.le b = true := by decide
  obtain ⟨hscan, hcompact⟩ := mergeCalls_sound_iff yields_list MvccIterator.counterRules (by rfl)
    hitems deletingConfig hinput
  refine ⟨by decide, hcompact.2 fun k _ e he => ?_, hscan [.back]⟩
  by_cases hk : k = 1
  · subst hk
    cases he
    decide
  · simp [StreamConfig.below, operandOverDelete, Ne.symm hk] at he

/-- An operand under the delete is still folded: the operator is called without operands. -/
theorem deletedOperand_called_empty :
    (⟨1, none, []⟩ : MergeCall ℕ ℕ) ∈
        deletingConfig.mergeCalls [⟨1, 3, .mergeOperand, 4⟩] ∧
      ¬ ∀ x ∈ deletingConfig.mergeCalls [⟨1, 3, .mergeOperand, 4⟩],
        x.Sound deletingConfig.covers
          (deletingConfig.below x.userKey [⟨1, 3, .mergeOperand, 4⟩]) := by
  have hmem : (⟨1, none, []⟩ : MergeCall ℕ ℕ) ∈
      deletingConfig.mergeCalls [⟨1, 3, .mergeOperand, 4⟩] := by decide
  exact ⟨hmem, fun h => (h _ hmem).nonempty rfl⟩

end LsmTree
