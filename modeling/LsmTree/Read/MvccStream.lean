import LsmTree.Memtable
import LsmTree.Theory.SortedSearch

/-! The last stages of an iterator, forwards: one entry per key with its merge operands folded, and
range tombstones swept along the keys. -/
namespace LsmTree

open List

variable {K V : Type*} [LinearOrder K]

def isRtSuppressed (rts : List (RangeTombstone K)) (cutoff : ℕ) (e : InternalValue K V) : Bool :=
  rts.any fun rt => rt.shouldSuppress e.userKey e.seqno cutoff

/-- What the walk under a merge operand gathers: the older operands, newest first, and what
it stops at. -/
structure MergeWalk (V : Type*) where
  operands : List V
  baseValue : Option V
  sawIndirectionBase : Bool
  deriving DecidableEq, Repr

structure MvccStream (K V : Type*) where
  mergeOperator : Option (MergeOperator K V)
  rangeTombstones : List (RangeTombstone K)
  cutoff : ℕ

namespace MvccStream

variable (m : MvccStream K V)

def collect (k : K) : List (InternalValue K V) → MergeWalk V
  | [] => ⟨[], none, false⟩
  | e :: es =>
    if e.userKey ≠ k then ⟨[], none, false⟩
    else if isRtSuppressed m.rangeTombstones m.cutoff e then ⟨[], none, false⟩
    else match e.valueType with
      | .mergeOperand =>
        let walk := collect k es
        { walk with operands := e.value :: walk.operands }
      | .value => ⟨[], some e.value, false⟩
      -- the payload is a pointer into a blob file, not a base for the operator
      | .indirection => ⟨[], none, true⟩
      | .tombstone | .weakTombstone => ⟨[], none, false⟩

def resolveMergeForward (op : MergeOperator K V) (head : InternalValue K V)
    (rest : List (InternalValue K V)) : InternalValue K V :=
  let walk := m.collect head.userKey rest
  if walk.sawIndirectionBase then head
  else
    ⟨head.userKey, head.seqno, .value,
      op.merge head.userKey walk.baseValue (head.value :: walk.operands).reverse⟩

/-- What `next` returns when it pulls `head`. -/
def emit (head : InternalValue K V) (rest : List (InternalValue K V)) : InternalValue K V :=
  match m.mergeOperator with
  | some op =>
    if head.isMergeOperand && !isRtSuppressed m.rangeTombstones m.cutoff head then
      m.resolveMergeForward op head rest
    else head
  | none => head

/-- All results of `next`. Older entries of the key just returned are drained. -/
def drainFrom : Option K → List (InternalValue K V) → List (InternalValue K V)
  | _, [] => []
  | last, e :: es =>
    if last = some e.userKey then drainFrom last es
    else m.emit e es :: drainFrom (some e.userKey) es

def run (items : List (InternalValue K V)) : List (InternalValue K V) := m.drainFrom none items

/-- What the stream and the filters behind it leave of one key, from its entries. -/
def readKey : List (InternalValue K V) → Option V
  | [] => none
  | e :: es =>
    let result := m.emit e es
    if result.isTombstone || isRtSuppressed m.rangeTombstones m.cutoff result then none
    else some result.value

def readEntry : List (InternalValue K V) → Option (InternalValue K V)
  | [] => none
  | e :: es =>
    let result := m.emit e es
    if result.isTombstone || isRtSuppressed m.rangeTombstones m.cutoff result then none
    else some result

end MvccStream

/-- `RangeTombstoneFilter` with the tombstones still to come and the active ones. -/
def rangeTombstoneFilter (cutoff : ℕ) :
    List (RangeTombstone K) → List (RangeTombstone K) → List (InternalValue K V) →
      List (InternalValue K V)
  | _, _, [] => []
  | pending, active, e :: es =>
    let activated := (pending.takeWhile fun rt => decide (rt.start ≤ e.userKey)).filter
      fun rt => rt.visibleAt cutoff
    let active := (active ++ activated).filter fun rt => decide (e.userKey < rt.stop)
    let pending := pending.dropWhile fun rt => decide (rt.start ≤ e.userKey)
    if active.any fun rt => decide (e.seqno < rt.seqno) then
      rangeTombstoneFilter cutoff pending active es
    else e :: rangeTombstoneFilter cutoff pending active es

variable {rts : List (RangeTombstone K)} {cutoff : ℕ} {e : InternalValue K V}

theorem isRtSuppressed_iff : isRtSuppressed rts cutoff e = true ↔
      ∃ rt ∈ rts, rt.seqno < cutoff ∧ (rt.start ≤ e.userKey ∧ e.userKey < rt.stop) ∧
        e.seqno < rt.seqno := by
  simp [isRtSuppressed, RangeTombstone.shouldSuppress_iff]

theorem isRtSuppressed_congr {rts' : List (RangeTombstone K)} (e : InternalValue K V)
    (h : ∀ rt, rt.seqno < cutoff → rt.contains e.userKey = true → (rt ∈ rts ↔ rt ∈ rts')) :
    isRtSuppressed rts cutoff e = isRtSuppressed rts' cutoff e := by
  rw [Bool.eq_iff_iff, isRtSuppressed_iff, isRtSuppressed_iff]
  constructor
  · rintro ⟨rt, hrt, hv, hc, hs⟩
    exact ⟨rt, (h rt hv (RangeTombstone.contains_iff.2 hc)).1 hrt, hv, hc, hs⟩
  · rintro ⟨rt, hrt, hv, hc, hs⟩
    exact ⟨rt, (h rt hv (RangeTombstone.contains_iff.2 hc)).2 hrt, hv, hc, hs⟩

theorem isRtSuppressed_older {f : InternalValue K V} (h : isRtSuppressed rts cutoff e = true)
    (hk : f.userKey = e.userKey) (hs : f.seqno ≤ e.seqno) :
    isRtSuppressed rts cutoff f = true := by
  obtain ⟨rt, hrt, hv, hc, he⟩ := isRtSuppressed_iff.1 h
  exact isRtSuppressed_iff.2 ⟨rt, hrt, hv, by rwa [hk], by omega⟩

section Filter

variable {cutoff : ℕ} {pending active : List (RangeTombstone K)} {e : InternalValue K V}

theorem rangeTombstoneFilter_eq {es : List (InternalValue K V)}
    (hp : pending.Pairwise fun a b => a.start ≤ b.start)
    (ha : ∀ rt ∈ active, rt.seqno < cutoff ∧ ∀ e ∈ es, rt.start ≤ e.userKey)
    (hs : es.Pairwise fun a b => a.userKey ≤ b.userKey) :
    rangeTombstoneFilter cutoff pending active es =
      es.filter fun e => !isRtSuppressed (pending ++ active) cutoff e := by
  induction es generalizing pending active with
  | nil => rfl
  | cons e es ih =>
    rw [pairwise_cons] at hs
    obtain ⟨active', hactive'⟩ : ∃ a, a = (active ++ (pending.takeWhile
        fun rt => decide (rt.start ≤ e.userKey)).filter fun rt => rt.visibleAt cutoff).filter
          fun rt => decide (e.userKey < rt.stop) := ⟨_, rfl⟩
    obtain ⟨pending', hpending'⟩ : ∃ p, p = pending.dropWhile
        fun rt => decide (rt.start ≤ e.userKey) := ⟨_, rfl⟩
    have hsplit := takeWhile_append_dropWhile
      (p := fun rt : RangeTombstone K => decide (rt.start ≤ e.userKey)) (l := pending)
    rw [← hpending'] at hsplit
    have htaken : ∀ rt, (rt ∈ pending.takeWhile fun rt => decide (rt.start ≤ e.userKey)) ↔
        rt ∈ pending ∧ rt.start ≤ e.userKey := fun rt => SortedSearch.mem_takeWhile_le hp
    -- an active tombstone has started, is visible, and has not ended
    have hmem : ∀ rt, rt ∈ active' ↔ (rt ∈ active ∨ (rt ∈ pending ∧ rt.start ≤ e.userKey ∧
        rt.seqno < cutoff)) ∧ e.userKey < rt.stop := by
      intro rt
      rw [hactive', mem_filter, mem_append, mem_filter, decide_eq_true_eq,
        RangeTombstone.visibleAt, decide_eq_true_eq, htaken, and_assoc]
    have hhere : (active'.any fun rt => decide (e.seqno < rt.seqno)) =
        isRtSuppressed (pending ++ active) cutoff e := by
      rw [Bool.eq_iff_iff, isRtSuppressed_iff, any_eq_true]
      constructor
      · rintro ⟨rt, hrt, hlt⟩
        obtain ⟨hin | ⟨hin, hle, hv⟩, hstop⟩ := (hmem rt).1 hrt
        · have hact := ha rt hin
          exact ⟨rt, mem_append_right _ hin, hact.1, ⟨hact.2 e mem_cons_self, hstop⟩,
            of_decide_eq_true hlt⟩
        · exact ⟨rt, mem_append_left _ hin, hv, ⟨hle, hstop⟩, of_decide_eq_true hlt⟩
      · rintro ⟨rt, hrt, hv, ⟨hle, hstop⟩, hlt⟩
        refine ⟨rt, (hmem rt).2 ⟨?_, hstop⟩, decide_eq_true hlt⟩
        rcases mem_append.1 hrt with hrt | hrt
        · exact Or.inr ⟨hrt, hle, hv⟩
        · exact Or.inl hrt
    have hrest : rangeTombstoneFilter cutoff pending' active' es =
        es.filter fun f => !isRtSuppressed (pending ++ active) cutoff f := by
      rw [ih (hp.sublist (hpending' ▸ dropWhile_sublist _)) ?_ hs.2]
      · refine filter_congr fun f hf => ?_
        have hef := hs.1 f hf
        rw [isRtSuppressed_congr f fun rt hv hc => ?_]
        rw [mem_append, hmem, mem_append]
        rw [RangeTombstone.contains_iff] at hc
        constructor
        · rintro (h | ⟨h | ⟨h, -, -⟩, -⟩)
          · exact Or.inl (hsplit ▸ mem_append_right _ h)
          · exact Or.inr h
          · exact Or.inl h
        · rintro (h | h)
          · by_cases hle : rt.start ≤ e.userKey
            · exact Or.inr ⟨Or.inr ⟨h, hle, hv⟩, hef.trans_lt hc.2⟩
            · refine Or.inl ?_
              rw [← hsplit, mem_append] at h
              exact h.resolve_left fun h => hle ((htaken rt).1 h).2
          · exact Or.inr ⟨Or.inl h, hef.trans_lt hc.2⟩
      · intro rt hrt
        obtain ⟨hin | ⟨-, hle, hv⟩, -⟩ := (hmem rt).1 hrt
        · exact ⟨(ha rt hin).1, fun f hf => (ha rt hin).2 f (mem_cons_of_mem _ hf)⟩
        · exact ⟨hv, fun f hf => hle.trans (hs.1 f hf)⟩
    rw [rangeTombstoneFilter, ← hactive', ← hpending', hhere, hrest, filter_cons]
    cases isRtSuppressed (pending ++ active) cutoff e <;> rfl

end Filter

namespace MvccStream

variable {m : MvccStream K V} {k : K} {e : InternalValue K V} {es : List (InternalValue K V)}

theorem emit_userKey (e : InternalValue K V) (es : List (InternalValue K V)) :
    (m.emit e es).userKey = e.userKey := by
  unfold emit resolveMergeForward
  grind

theorem emit_seqno (e : InternalValue K V) (es : List (InternalValue K V)) :
    (m.emit e es).seqno = e.seqno := by
  unfold emit resolveMergeForward
  grind

theorem collect_filter (hs : es.Pairwise fun a b => a.userKey ≤ b.userKey)
    (hk : ∀ e ∈ es, k ≤ e.userKey) :
    m.collect k es = m.collect k (es.filter fun e => e.userKey = k) := by
  induction es with
  | nil => rfl
  | cons e es ih =>
    rw [pairwise_cons] at hs
    by_cases he : e.userKey = k
    · have hrest := ih hs.2 fun f hf => hk f (mem_cons_of_mem _ hf)
      rw [filter_cons_of_pos (by simpa using he)]
      simp only [collect, hrest]
    · have hnone : (e :: es).filter (fun e => e.userKey = k) = [] := by
        refine filter_eq_nil_iff.2 fun f hf => ?_
        have hlt : k < e.userKey := lt_of_le_of_ne (hk e mem_cons_self) (Ne.symm he)
        have hle : e.userKey ≤ f.userKey := by
          rcases mem_cons.1 hf with rfl | hf
          · exact le_refl _
          · exact hs.1 f hf
        simpa using (hlt.trans_le hle).ne'
      rw [hnone]
      simp only [collect, ne_eq, he, not_false_eq_true, if_true]

theorem emit_congr {fs : List (InternalValue K V)}
    (h : m.collect e.userKey es = m.collect e.userKey fs) : m.emit e es = m.emit e fs := by
  simp only [emit, resolveMergeForward, h]

theorem emit_filter (hs : (e :: es).Pairwise fun a b => a.userKey ≤ b.userKey) :
    m.emit e es = m.emit e (es.filter fun f => f.userKey = e.userKey) := by
  rw [pairwise_cons] at hs
  exact emit_congr (collect_filter hs.2 hs.1)

theorem drainFrom_filter {last : Option K}
    (hs : es.Pairwise fun a b => a.userKey ≤ b.userKey)
    (hlast : ∀ l ∈ last, ∀ e ∈ es, l ≤ e.userKey) :
    (m.drainFrom last es).filter (fun e => e.userKey = k) =
      if last = some k then [] else
        match es.filter fun e => e.userKey = k with
        | [] => []
        | f :: fs => [m.emit f fs] := by
  induction es generalizing last with
  | nil => simp [drainFrom]
  | cons e es ih =>
    have hs' := pairwise_cons.1 hs
    rw [drainFrom]
    split
    case isTrue hskip =>
      rw [ih hs'.2 fun l hl f hf => hlast l hl f (mem_cons_of_mem _ hf)]
      by_cases hk : last = some k
      · rw [if_pos hk, if_pos hk]
      · rw [if_neg hk, if_neg hk, filter_cons_of_neg]
        rw [hskip] at hk
        simpa using hk
    case isFalse hskip =>
      have hrest := @ih (some e.userKey) hs'.2 (by simpa using hs'.1)
      by_cases hk : e.userKey = k
      · subst hk
        rw [filter_cons_of_pos (by simp [emit_userKey]), hrest, if_pos rfl, if_neg hskip,
          filter_cons_of_pos (by simp), emit_filter hs]
      · rw [filter_cons_of_neg (by simpa [emit_userKey] using hk), hrest,
          if_neg (by simpa using hk), filter_cons_of_neg (by simpa using hk)]
        by_cases hl : last = some k
        · -- `k` was returned before, and `e` lies above it
          have hke : k < e.userKey :=
            lt_of_le_of_ne (hlast k hl e mem_cons_self) (Ne.symm hk)
          have hnone : es.filter (fun e => e.userKey = k) = [] := by
            refine filter_eq_nil_iff.2 fun f hf => ?_
            simpa using (hke.trans_le (hs'.1 f hf)).ne'
          rw [hnone, if_pos hl]
        · rw [if_neg hl]

theorem drainFrom_keys (last : Option K) (es : List (InternalValue K V)) :
    ((m.drainFrom last es).map (·.userKey)).Sublist (es.map (·.userKey)) := by
  induction es generalizing last with
  | nil => exact List.Sublist.refl _
  | cons e es ih =>
    rw [drainFrom, map_cons]
    split
    · exact (ih last).cons _
    · rw [map_cons, emit_userKey]
      exact (ih _).cons_cons _

theorem run_sorted (hs : es.Pairwise fun a b => a.userKey ≤ b.userKey) :
    (m.run es).Pairwise fun a b => a.userKey ≤ b.userKey :=
  pairwise_map.1 ((pairwise_map.2 hs).sublist (drainFrom_keys none es))

theorem run_filter_key (hs : es.Pairwise fun a b => a.userKey ≤ b.userKey) :
    ((m.run es).filter fun e =>
      !isRtSuppressed m.rangeTombstones m.cutoff e && !e.isTombstone).filter
        (fun e => e.userKey = k) = (m.readEntry (es.filter fun e => e.userKey = k)).toList := by
  rw [filter_comm, run, drainFrom_filter hs (by simp), if_neg (by simp)]
  cases es.filter fun e => e.userKey = k with
  | nil => rfl
  | cons e es =>
    simp only [readEntry, filter_cons, filter_nil]
    cases (m.emit e es).isTombstone <;>
      cases isRtSuppressed m.rangeTombstones m.cutoff (m.emit e es) <;> rfl

theorem isRtSuppressed_emit {rts : List (RangeTombstone K)} {cutoff : ℕ} :
    isRtSuppressed rts cutoff (m.emit e es) = isRtSuppressed rts cutoff e := by
  simp only [isRtSuppressed, emit_userKey, emit_seqno]

theorem emit_of_not_operand (h : e.isMergeOperand = false) : m.emit e es = e := by
  unfold emit
  split
  · simp [h]
  · rfl

theorem readKey_eq_readEntry (es : List (InternalValue K V)) :
    m.readKey es = (m.readEntry es).map (·.value) := by
  cases es with
  | nil => rfl
  | cons e es =>
    simp only [readKey, readEntry]
    split_ifs <;> rfl

theorem readKey_of_suppressed (h : isRtSuppressed m.rangeTombstones m.cutoff e = true) :
    m.readKey (e :: es) = none := by
  simp only [readKey, isRtSuppressed_emit, h, Bool.or_true, if_true]

theorem run_of_sameKey (h : ∀ f ∈ es, f.userKey = e.userKey) : m.run (e :: es) = [m.emit e es] := by
  have hdrain : ∀ l : List (InternalValue K V), (∀ f ∈ l, f.userKey = e.userKey) →
      m.drainFrom (some e.userKey) l = [] := by
    intro l hl
    induction l with
    | nil => rfl
    | cons f l ih =>
      obtain ⟨hf, hl⟩ := forall_mem_cons.1 hl
      rw [drainFrom, if_pos (by rw [hf]), ih hl]
  rw [run, drainFrom, if_neg (by simp), hdrain es h]

theorem unsuppressed_eq_nil (hes : ∀ f ∈ es, isRtSuppressed m.rangeTombstones m.cutoff f = true) :
    es.filter (fun f => !isRtSuppressed m.rangeTombstones m.cutoff f) = [] := by
  apply filter_eq_nil_iff.2
  intro f hf
  simp [hes f hf]

section Suffix

variable (hsuffix : es.Pairwise fun a b => isRtSuppressed m.rangeTombstones m.cutoff a = true →
  isRtSuppressed m.rangeTombstones m.cutoff b = true)
include hsuffix

theorem collect_unsuppressed : m.collect k es =
    m.collect k (es.filter fun f => !isRtSuppressed m.rangeTombstones m.cutoff f) := by
  induction es with
  | nil => rfl
  | cons e es ih =>
    rw [pairwise_cons] at hsuffix
    by_cases hs : isRtSuppressed m.rangeTombstones m.cutoff e = true
    · rw [unsuppressed_eq_nil (forall_mem_cons.2 ⟨hs, fun f hf => hsuffix.1 f hf hs⟩)]
      simp only [collect, hs, if_true, ite_self]
    · rw [filter_cons_of_pos (by simpa using hs)]
      simp only [collect, ih hsuffix.2]

variable (es) in
theorem readEntry_unsuppressed : m.readEntry es =
    m.readEntry (es.filter fun f => !isRtSuppressed m.rangeTombstones m.cutoff f) := by
  cases es with
  | nil => rfl
  | cons e es =>
    have hrest := pairwise_cons.1 hsuffix
    by_cases hs : isRtSuppressed m.rangeTombstones m.cutoff e = true
    · rw [unsuppressed_eq_nil (forall_mem_cons.2 ⟨hs, fun f hf => hrest.1 f hf hs⟩)]
      simp only [readEntry, isRtSuppressed_emit, hs, Bool.or_true, if_true]
    · rw [filter_cons_of_pos (by simpa using hs)]
      simp only [readEntry, emit_congr (collect_unsuppressed hrest.2)]

end Suffix

theorem suppressed_suffix {rts : List (RangeTombstone K)} {cutoff : ℕ}
    (hk : ∀ e ∈ es, e.userKey = k) (hs : es.Pairwise fun a b => b.seqno ≤ a.seqno) :
    es.Pairwise fun a b =>
      isRtSuppressed rts cutoff a = true → isRtSuppressed rts cutoff b = true := by
  apply hs.imp_of_mem
  intro a b ha hb hle hsup
  exact isRtSuppressed_older hsup ((hk b hb).trans (hk a ha).symm) hle

theorem readEntry_filter_key (hs : es.Pairwise fun a b => a.le b = true) :
    m.readEntry (es.filter fun e => e.userKey = k) =
      m.readEntry ((es.filter fun e => e.userKey = k).filter
        fun e => !isRtSuppressed m.rangeTombstones m.cutoff e) := by
  have hkey : ∀ e ∈ es.filter (fun e => e.userKey = k), e.userKey = k := fun e he =>
    of_decide_eq_true (mem_filter.1 he).2
  refine readEntry_unsuppressed _ (suppressed_suffix hkey ?_)
  apply (hs.filter _).imp_of_mem
  intro a b ha hb hle
  rcases InternalValue.le_iff.1 hle with hlt | ⟨-, hseqno⟩
  · exact absurd ((hkey a ha).trans (hkey b hb).symm) hlt.ne
  · exact hseqno

theorem run_filter_live {live : InternalValue K V → Bool}
    (hs : es.Pairwise fun a b => a.le b = true)
    (hlive : ∀ e, live e = false → isRtSuppressed m.rangeTombstones m.cutoff e = true) :
    ((m.run (es.filter live)).filter fun e =>
      !isRtSuppressed m.rangeTombstones m.cutoff e && !e.isTombstone) =
    (m.run es).filter fun e =>
      !isRtSuppressed m.rangeTombstones m.cutoff e && !e.isTombstone := by
  have hkeys := hs.imp InternalValue.le_key.1
  apply SortedSearch.eq_of_filter_key ((run_sorted (hkeys.filter _)).filter _)
    ((run_sorted hkeys).filter _)
  intro k
  rw [run_filter_key (hkeys.filter _), run_filter_key hkeys, readEntry_filter_key (hs.filter _),
    readEntry_filter_key hs, filter_comm (l := es), filter_filter]
  congr 2
  apply filter_congr
  intro e _
  cases h : live e with
  | false => simp [hlive e h]
  | true => simp

section Congr

variable {op : Option (MergeOperator K V)} {rts rts' : List (RangeTombstone K)} {cutoff : ℕ}
  (h : ∀ e ∈ es, isRtSuppressed rts cutoff e = isRtSuppressed rts' cutoff e)
include h

theorem collect_congr : (⟨op, rts, cutoff⟩ : MvccStream K V).collect k es =
    (⟨op, rts', cutoff⟩ : MvccStream K V).collect k es := by
  induction es with
  | nil => rfl
  | cons e es ih =>
    obtain ⟨he, hes⟩ := forall_mem_cons.1 h
    simp only [collect, he, ih hes]

theorem readKey_congr : (⟨op, rts, cutoff⟩ : MvccStream K V).readKey es =
    (⟨op, rts', cutoff⟩ : MvccStream K V).readKey es := by
  cases es with
  | nil => rfl
  | cons e es =>
    obtain ⟨he, hes⟩ := forall_mem_cons.1 h
    have hemit : (⟨op, rts, cutoff⟩ : MvccStream K V).emit e es =
        (⟨op, rts', cutoff⟩ : MvccStream K V).emit e es := by
      simp only [emit, resolveMergeForward, he, collect_congr (k := e.userKey) hes]
    simp only [readKey, isRtSuppressed_emit, he, hemit]

end Congr

theorem collect_operands {ops : List (InternalValue K V)}
    (h : ∀ y ∈ ops, y.userKey = k ∧ y.isMergeOperand = true ∧
      isRtSuppressed m.rangeTombstones m.cutoff y = false) :
    m.collect k (ops ++ es) = { m.collect k es with
      operands := ops.map (·.value) ++ (m.collect k es).operands } := by
  induction ops with
  | nil => rfl
  | cons y ops ih =>
    obtain ⟨⟨hk, hop, hs⟩, hops⟩ := forall_mem_cons.1 h
    simp only [InternalValue.isMergeOperand, beq_iff_eq] at hop
    simp only [cons_append, collect, hk, hs, hop, ih hops, ne_eq, not_true_eq_false,
      if_false, Bool.false_eq_true, map_cons]

theorem readKey_operand {op : MergeOperator K V} (hm : m.mergeOperator = some op)
    (hop : e.isMergeOperand = true) (hs : isRtSuppressed m.rangeTombstones m.cutoff e = false) :
    m.readKey (e :: es) = some (if (m.collect e.userKey es).sawIndirectionBase then e.value
      else op.merge e.userKey (m.collect e.userKey es).baseValue
        (e.value :: (m.collect e.userKey es).operands).reverse) := by
  have hemit : m.emit e es = m.resolveMergeForward op e es := by
    simp only [emit, hm, hop, hs, Bool.not_false, Bool.and_self, if_true]
  have hlive : (m.emit e es).isTombstone = false := by
    simp only [InternalValue.isMergeOperand, beq_iff_eq] at hop
    rw [hemit, resolveMergeForward]
    split_ifs <;> simp [InternalValue.isTombstone, ValueType.isTombstone, hop]
  simp only [readKey, isRtSuppressed_emit, hs, hlive, Bool.or_self, Bool.false_eq_true, if_false]
  rw [hemit, resolveMergeForward]
  split_ifs <;> rfl

end MvccStream

end LsmTree
