import LsmTree.Resolve
import LsmTree.Compaction.Stream

/-! The compaction stream keeps what readers at or above the watermark resolve. -/
namespace LsmTree.StreamConfig

open List

variable {K V : Type*} [LinearOrder K] {c : StreamConfig K V} {k : K}

section Locality

variable {head : InternalValue K V} {pending b rest : List (InternalValue K V)}

theorem drainKey_own (hb : ∀ e ∈ b, e.userKey = k) : drainKey k b = [] := by
  simpa [drainKey, dropWhile_eq_nil_iff] using hb

theorem drainKey_append (hb : ∀ e ∈ b, e.userKey = k) (hr : ∀ e ∈ rest, e.userKey ≠ k) :
    drainKey k (b ++ rest) = drainKey k b ++ rest := by
  induction b with
  | nil =>
    cases rest with
    | nil => rfl
    | cons x rest => simp [drainKey, hr x (by simp)]
  | cons x b ih =>
    have hx : x.userKey = k := hb x (by simp)
    simpa [drainKey, hx] using ih fun e he => hb e (by simp [he])

theorem collectOperands_append (hb : ∀ e ∈ b, e.userKey = k) (hr : ∀ e ∈ rest, e.userKey ≠ k) :
    c.collectOperands k (b ++ rest) = ((c.collectOperands k b).1, (c.collectOperands k b).2.1,
      (c.collectOperands k b).2.2 ++ rest) := by
  induction b with
  | nil =>
    cases rest with
    | nil => rfl
    | cons x rest => simp [collectOperands, hr x (by simp)]
  | cons x b ih =>
    have hx : x.userKey = k := hb x (by simp)
    have hb' : ∀ e ∈ b, e.userKey = k := fun e he => hb e (by simp [he])
    have hd := drainKey_append hb' hr
    simp only [cons_append, collectOperands, hx, if_true, ih hb']
    cases x.valueType <;> simp only [hd, cons_append]

def Turn.append (t : Turn K V) (rest : List (InternalValue K V)) : Turn K V :=
  { t with inner := t.inner ++ rest }

omit [LinearOrder K] in
@[simp] theorem Turn.append_out (t : Turn K V) (rest : List (InternalValue K V)) :
    (t.append rest).out = t.out := rfl

omit [LinearOrder K] in
@[simp] theorem Turn.append_pending (t : Turn K V) (rest : List (InternalValue K V)) :
    (t.append rest).pending = t.pending := rfl

omit [LinearOrder K] in
@[simp] theorem Turn.append_inner (t : Turn K V) (rest : List (InternalValue K V)) :
    (t.append rest).inner = t.inner ++ rest := rfl

variable (c pending) in
theorem collapse_append (hh : head.userKey = k) (hb : ∀ e ∈ b, e.userKey = k)
    (hr : ∀ e ∈ rest, e.userKey ≠ k) :
    c.collapse head pending (b ++ rest) = (c.collapse head pending b).append rest := by
  unfold collapse resolveWithOperator Turn.append
  cases c.mergeOperator with
  | none => rfl
  | some m =>
    simp only [resolveMergeOperands, hh, collectOperands_append hb hr]
    cases (c.collectOperands k b).2.1 <;> rfl

variable (c pending) in
theorem turnLast_append (hh : head.userKey = k) (hb : ∀ e ∈ b, e.userKey = k)
    (hr : ∀ e ∈ rest, e.userKey ≠ k) :
    c.turnLast head pending (b ++ rest) = (c.turnLast head pending b).append rest := by
  unfold turnLast
  rw [collapse_append c pending hh hb hr]
  split_ifs <;> rfl

theorem turn_append (hh : head.userKey = k) (hb : ∀ e ∈ b, e.userKey = k)
    (hr : ∀ e ∈ rest, e.userKey ≠ k) :
    c.turn head pending (b ++ rest) = (c.turn head pending b).append rest := by
  cases b with
  | nil =>
    have hl := turnLast_append c pending hh hb hr
    cases rest with
    | nil => exact hl
    | cons x rest =>
      rw [nil_append] at hl ⊢
      simp only [turn, hh]
      rw [if_neg (hr x (by simp)), hl]
  | cons x b =>
    have hx : x.userKey = head.userKey := by rw [hh]; exact hb x (by simp)
    have hd := drainKey_append hb hr
    have hc := collapse_append c pending hh hb hr
    rw [← hh] at hd
    simp only [cons_append] at hd hc ⊢
    simp only [turn, hx, if_true, turnShadowing, hd, hc]
    split_ifs <;> rfl

variable {inner : List (InternalValue K V)}

@[simp] theorem emit_pending :
    (c.emit head pending inner).pending = pending := rfl

@[simp] theorem emit_inner :
    (c.emit head pending inner).inner = inner := rfl

theorem run_append (hp : ∀ e ∈ pending, e.userKey = k) (hb : ∀ e ∈ b, e.userKey = k)
    (hr : ∀ e ∈ rest, e.userKey ≠ k) :
    c.run pending (b ++ rest) = c.run pending b ++ c.run [] rest := by
  induction hn : pending.length + b.length using Nat.strong_induction_on
    generalizing pending b with
  | _ n ih =>
    cases pending with
    | cons head pending =>
      have hh : head.userKey = k := hp head (by simp)
      have hps := turn_passes c head pending b
      have hl := hps.length_le
      rw [run_pending, run_pending, turn_append hh hb hr, append_assoc]
      simp only [Turn.append_out, Turn.append_pending, Turn.append_inner]
      refine congrArg _ (ih _ ?_ ?_ ?_ rfl)
      · simp only [length_cons] at hn
        omega
      · intro e he
        rcases hps.pending_mem he with h | h
        · exact hp e (by simp [h])
        · exact hb e h
      · exact fun e he => hb e (hps.inner_mem he)
    | nil =>
      cases b with
      | nil => simp
      | cons head b =>
        have hh : head.userKey = k := hb head (by simp)
        have hb' : ∀ e ∈ b, e.userKey = k := fun e he => hb e (by simp [he])
        have hps := turn_passes c head [] b
        have hl := hps.length_le
        rw [cons_append, run_input, run_input, turn_append hh hb' hr, append_assoc]
        simp only [Turn.append_out, Turn.append_pending, Turn.append_inner]
        refine congrArg _ (ih _ ?_ ?_ ?_ rfl)
        · simp only [length_cons, length_nil] at hn hl ⊢
          omega
        · intro e he
          rcases hps.pending_mem he with h | h
          · simp at h
          · exact hb' e h
        · exact fun e he => hb' e (hps.inner_mem he)

variable {input : List (InternalValue K V)}

theorem dropWhile_key_ne (hs : input.Pairwise fun a b => a.userKey ≤ b.userKey)
    (hk : ∀ e ∈ input, k ≤ e.userKey) :
    ∀ e ∈ input.dropWhile (fun e => decide (e.userKey = k)), e.userKey ≠ k := by
  induction input with
  | nil => simp
  | cons x input ih =>
    rw [pairwise_cons] at hs
    by_cases hx : x.userKey = k
    · simpa [hx] using ih hs.2 fun e he => hk e (by simp [he])
    · have hlt : k < x.userKey := lt_of_le_of_ne (hk x (by simp)) (Ne.symm hx)
      simp only [hx, decide_false, Bool.false_eq_true, not_false_eq_true,
        dropWhile_cons_of_neg, mem_cons, forall_eq_or_imp]
      exact ⟨hx, fun e he => ne_of_gt (lt_of_lt_of_le hlt (hs.1 e he))⟩

theorem compactionStream_filter (k : K) (hs : input.Pairwise fun a b => a.userKey ≤ b.userKey) :
    (c.compactionStream input).filter (fun e => e.userKey = k) =
      c.compactionStream (input.filter fun e => e.userKey = k) := by
  unfold compactionStream
  induction hn : input.length using Nat.strong_induction_on generalizing input with
  | _ n ih =>
    cases input with
    | nil => rfl
    | cons x input =>
      -- the first key's entries, and everything after them
      obtain ⟨own, rest, hsplit, hown, hrest, hx⟩ : ∃ own rest, own ++ rest = x :: input ∧
          (∀ e ∈ own, e.userKey = x.userKey) ∧ (∀ e ∈ rest, e.userKey ≠ x.userKey) ∧
          own ≠ [] := by
        refine ⟨(x :: input).takeWhile fun e => decide (e.userKey = x.userKey),
          (x :: input).dropWhile fun e => decide (e.userKey = x.userKey),
          takeWhile_append_dropWhile, fun e he => by simpa using mem_takeWhile_imp he,
          dropWhile_key_ne hs ?_, by simp⟩
        intro e he
        rcases mem_cons.1 he with rfl | he
        · exact le_rfl
        · exact (pairwise_cons.1 hs).1 e he
      have hlen : rest.length < n := by
        have := congrArg List.length hsplit
        have := length_pos_iff.2 hx
        simp only [length_append] at *
        omega
      rw [← hsplit] at hs ⊢
      rw [run_append (by simp) hown hrest, filter_append, filter_append,
        ih _ hlen (pairwise_append.1 hs).2.1 rfl]
      by_cases hk : x.userKey = k
      · subst hk
        have h1 : own.filter (fun e => decide (e.userKey = x.userKey)) = own :=
          filter_eq_self.2 (by simpa using hown)
        have h2 : (c.run [] own).filter (fun e => decide (e.userKey = x.userKey)) =
            c.run [] own := by
          refine filter_eq_self.2 fun e he => ?_
          obtain ⟨f, hf, hfk⟩ := run_key_mem [] own e he
          simpa [← hfk] using hown f (by simpa using hf)
        have h3 : rest.filter (fun e => decide (e.userKey = x.userKey)) = [] := by
          simpa [filter_eq_nil_iff] using hrest
        rw [h1, h2, h3]
        simp
      · have h1 : own.filter (fun e => decide (e.userKey = k)) = [] := by
          refine filter_eq_nil_iff.2 fun e he => ?_
          simpa [hown e he] using hk
        have h2 : (c.run [] own).filter (fun e => decide (e.userKey = k)) = [] := by
          refine filter_eq_nil_iff.2 fun e he => ?_
          obtain ⟨f, hf, hfk⟩ := run_key_mem [] own e he
          simpa [← hfk, hown f (by simpa using hf)] using hk
        rw [h1, h2]
        simp

end Locality

/-- A reader that consults the tombstones the stream applies, at or above the watermark. -/
structure Serves (c : StreamConfig K V) (r : ReadView K V) : Prop where
  rangeTombstones : r.rangeTombstones = c.rtApply
  mergeOperator : r.mergeOperator = c.mergeOperator
  seqno : c.gcSeqnoThreshold ≤ r.seqno

section Cover

variable {r : ReadView K V} {e f : InternalValue K V}

theorem covered_iff {s : ℕ} : c.coveredByAppliedTombstone k s = true ↔
    ∃ rt ∈ c.rtApply, rt.seqno < c.gcSeqnoThreshold ∧ (rt.start ≤ k ∧ k < rt.stop) ∧
      s < rt.seqno := by
  simp [coveredByAppliedTombstone, applied, RangeTombstone.visibleAt, RangeTombstone.contains_iff,
    and_assoc]

theorem covered_older {s t : ℕ} (h : c.coveredByAppliedTombstone k s = true) (hs : t ≤ s) :
    c.coveredByAppliedTombstone k t = true := by
  obtain ⟨rt, hm, hw, hc, hlt⟩ := covered_iff.1 h
  exact covered_iff.2 ⟨rt, hm, hw, hc, by omega⟩

theorem Serves.hides_of_covered (hr : c.Serves r)
    (h : c.coveredByAppliedTombstone e.userKey e.seqno = true) : r.hides e = true := by
  obtain ⟨rt, hm, hw, hc, hlt⟩ := covered_iff.1 h
  have := hr.seqno
  exact ReadView.hides_iff.2 ⟨rt, by rwa [hr.rangeTombstones], by omega, hc, hlt⟩

theorem Serves.hides_eq_covered (hr : c.Serves r) (he : r.hides e = false)
    (hw : e.seqno < c.gcSeqnoThreshold) (hk : f.userKey = e.userKey) :
    r.hides f = c.coveredByAppliedTombstone f.userKey f.seqno := by
  rw [Bool.eq_iff_iff]
  refine ⟨fun h => ?_, hr.hides_of_covered⟩
  obtain ⟨rt, hm, hlt, hc, hf⟩ := ReadView.hides_iff.1 h
  have hnot : ¬ e.seqno < rt.seqno := by
    intro hlt'
    have : r.hides e = true := ReadView.hides_iff.2 ⟨rt, hm, hlt, by rwa [← hk], hlt'⟩
    rw [he] at this
    cases this
  exact covered_iff.2 ⟨rt, by rwa [← hr.rangeTombstones], by omega, hc, hf⟩

end Cover

structure KeyTail (c : StreamConfig K V) (k : K) (below es : List (InternalValue K V)) : Prop where
  key : ∀ e ∈ es ++ below, e.userKey = k
  newestFirst : (es ++ below).Pairwise fun a b => b.seqno ≤ a.seqno
  bottom : c.evictTombstones = true → es ≠ [] → below = []
  -- where something lies below, a weak delete has at most one older write of its key under it
  weak : below ≠ [] → ∀ newer e older, newer ++ e :: older = es ++ below → e.valueType = .weakTombstone →
    older.length ≤ 1

namespace KeyTail

variable {below es es' newer : List (InternalValue K V)} {e : InternalValue K V}

omit [LinearOrder K] in
variable (newer) in
theorem tail (h : c.KeyTail k below (newer ++ es)) : c.KeyTail k below es := by
  refine ⟨fun f hf => h.key f ?_, ?_, fun he hne => h.bottom he (by simp [hne]), ?_⟩
  · rw [append_assoc]
    exact mem_append_right _ hf
  · have := h.newestFirst
    rw [append_assoc] at this
    exact (pairwise_append.1 this).2.1
  · intro hb xs f ys hxy hf
    refine h.weak hb (newer ++ xs) f ys ?_ hf
    rw [append_assoc, append_assoc, hxy]

omit [LinearOrder K] in
theorem older (h : c.KeyTail k below (e :: es)) :
    ∀ f ∈ es ++ below, f.userKey = e.userKey ∧ f.seqno ≤ e.seqno := by
  intro f hf
  have hp := h.newestFirst
  rw [cons_append, pairwise_cons] at hp
  rw [h.key f (mem_cons_of_mem _ hf), h.key e (by simp)]
  exact ⟨rfl, hp.1 f hf⟩

omit [LinearOrder K] in
theorem keepHead (h : c.KeyTail k below (e :: es)) : c.KeyTail k below [e] := by
  have hsub : ([e] ++ below).Sublist (e :: es ++ below) := by simp
  refine ⟨fun f hf => h.key f (hsub.subset hf), h.newestFirst.sublist hsub,
    fun he _ => h.bottom he (by simp), ?_⟩
  intro hb newer f older hf hty
  cases newer with
  | nil =>
    simp only [nil_append, cons_append, List.cons.injEq] at hf
    obtain ⟨rfl, rfl⟩ := hf
    have := h.weak hb [] f (es ++ older) rfl hty
    simp only [length_append] at this
    omega
  | cons g newer =>
    simp only [nil_append, cons_append, List.cons.injEq] at hf
    obtain ⟨rfl, hrest⟩ := hf
    refine h.weak hb (g :: es ++ newer) f older ?_ hty
    rw [append_assoc, hrest]

end KeyTail

section OneKey

variable {r : ReadView K V} {below es es' : List (InternalValue K V)} {head : InternalValue K V}
  {acc : List V}

theorem resolveFrom_under_hidden (ht : c.KeyTail k below (head :: es)) (hh : r.hides head = true)
    (hsub : ∀ e ∈ es', e ∈ es ++ below) :
    r.resolveFrom k acc es' = settle r.mergeOperator k none acc :=
  ReadView.resolveFrom_all_hidden fun e he =>
    ReadView.hides_older hh (ht.older e (hsub e he)).1 (ht.older e (hsub e he)).2

variable (acc) in
theorem emit_keeps (pending inner : List (InternalValue K V)) (hr : c.Serves r)
    (ht : c.KeyTail k below (head :: es))
    (h : ∀ acc, r.resolveFrom k acc es' = r.resolveFrom k acc (es ++ below)) :
    r.resolveFrom k acc ((c.emit head pending inner).out.toList ++ es') =
      r.resolveFrom k acc (head :: (es ++ below)) := by
  unfold emit
  split
  · rename_i hc
    have hh := hr.hides_of_covered hc
    simp only [Option.toList_none, nil_append]
    rw [h acc, ReadView.resolveFrom_hidden hh, resolveFrom_under_hidden ht hh fun e he => he]
  · exact ReadView.resolveFrom_cons_congr head h acc

variable {m : MergeOperator K V} {ops : List (InternalValue K V)}

variable (c acc) in
theorem resolveFrom_operands (hm : r.mergeOperator = some m) (tail : List (InternalValue K V))
    (hty : ∀ e ∈ ops, e.valueType = .mergeOperand) (hvis : ∀ e ∈ ops, e.seqno < r.seqno)
    (hhid : ∀ e ∈ ops, r.hides e = c.coveredByAppliedTombstone e.userKey e.seqno)
    (hkey : ∀ e ∈ ops, e.userKey = k) (hs : ops.Pairwise fun a b => b.seqno ≤ a.seqno) :
    r.resolveFrom k acc (ops ++ tail) =
      if ops.any (fun e => c.coveredByAppliedTombstone e.userKey e.seqno) then
        settle r.mergeOperator k none (c.uncoveredOperands ops ++ acc)
      else r.resolveFrom k (c.uncoveredOperands ops ++ acc) tail := by
  induction ops generalizing acc with
  | nil => simp [uncoveredOperands]
  | cons e ops ih =>
    rw [pairwise_cons] at hs
    simp only [mem_cons, forall_eq_or_imp] at hty hvis hhid hkey
    cases hc : c.coveredByAppliedTombstone e.userKey e.seqno with
    | true =>
      have hnone : c.uncoveredOperands (e :: ops) = [] := by
        have : ∀ f ∈ e :: ops, c.coveredByAppliedTombstone f.userKey f.seqno = true := by
          simp only [mem_cons, forall_eq_or_imp]
          refine ⟨hc, fun f hf => ?_⟩
          rw [hkey.2 f hf, ← hkey.1]
          exact covered_older hc (hs.1 f hf)
        simpa [uncoveredOperands, filter_eq_nil_iff] using this
      rw [cons_append, ReadView.resolveFrom_hidden (by rw [hhid.1, hc]), hnone]
      simp [hc]
    | false =>
      have hcons : c.uncoveredOperands (e :: ops) = c.uncoveredOperands ops ++ [e.value] := by
        simp [uncoveredOperands, hc]
      rw [cons_append,
        ReadView.resolveFrom_operand hvis.1 (by rw [hhid.1, hc]) hty.1 hm,
        ih _ hty.2 hvis.2 hhid.2 hkey.2 hs.2, hcons]
      simp [hc]

variable {inner : List (InternalValue K V)}

theorem collectOperands_split (hk : ∀ e ∈ inner, e.userKey = k) :
    ∃ tail, inner = (c.collectOperands k inner).1 ++ tail ∧
      (∀ e ∈ (c.collectOperands k inner).1, e.valueType = .mergeOperand) ∧
      match (c.collectOperands k inner).2.1 with
      | .exhausted => tail = [] ∧ (c.collectOperands k inner).2.2 = []
      | .indirection => (c.collectOperands k inner).2.2 = tail ∧
          ∃ x xs, tail = x :: xs ∧ x.valueType = .indirection
      | .boundary base => (c.collectOperands k inner).2.2 = [] ∧ ∃ x xs, tail = x :: xs ∧
          ((x.valueType = .value ∧ base =
            if c.coveredByAppliedTombstone k x.seqno then none else some x.value) ∨
          (x.isTombstone = true ∧ base = none)) := by
  induction inner with
  | nil => exact ⟨[], by simp [collectOperands]⟩
  | cons x inner ih =>
    have hx : x.userKey = k := hk x (by simp)
    have hk' : ∀ e ∈ inner, e.userKey = k := fun e he => hk e (by simp [he])
    have hd := drainKey_own hk'
    cases hty : x.valueType with
    | mergeOperand =>
      obtain ⟨tail, hsplit, hops, hend⟩ := ih hk'
      refine ⟨tail, ?_, ?_, ?_⟩
      · simp only [collectOperands, hx, if_true, hty, cons_append]
        rw [← hsplit]
      · simpa [collectOperands, hx, hty] using hops
      · simpa only [collectOperands, hx, if_true, hty] using hend
    | value => exact ⟨x :: inner, by simp [collectOperands, hx, hty, hd]⟩
    | indirection => exact ⟨x :: inner, by simp [collectOperands, hx, hty]⟩
    | tombstone | weakTombstone =>
      exact ⟨x :: inner, by simp [collectOperands, hx, hty, hd, InternalValue.isTombstone,
        ValueType.isTombstone]⟩

def Keeps (c : StreamConfig K V) (r : ReadView K V) (k : K)
    (below pending inner : List (InternalValue K V)) : Prop :=
  ∀ acc, r.resolveFrom k acc (c.run pending inner ++ below) =
    r.resolveFrom k acc (pending ++ inner ++ below)

def TurnKeeps (c : StreamConfig K V) (r : ReadView K V) (k : K)
    (below es : List (InternalValue K V)) (t : Turn K V) : Prop :=
  ∀ acc, r.resolveFrom k acc (t.out.toList ++ (c.run t.pending t.inner ++ below)) =
    r.resolveFrom k acc (es ++ below)

omit [LinearOrder K] in
theorem settle_folded (hfb : MergeLaws.FoldsBase (m.merge k)) (base : Option V) (xs acc : List V) :
    settle (some m) k (some (m.merge k base xs)) acc = some (m.merge k base (xs ++ acc)) := by
  cases acc with
  | nil => simp
  | cons v vs => rw [settle_some m k _ (by simp), hfb]

variable {pending : List (InternalValue K V)}

/-- Under a visible entry below the watermark, a reader hides what the stream covers. -/
theorem KeyTail.hides_eq (hr : c.Serves r) (ht : c.KeyTail k below (head :: es))
    (hw : head.seqno < c.gcSeqnoThreshold) (hh : r.hides head = false) :
    ∀ e ∈ head :: (es ++ below), e.userKey = k ∧ e.seqno < r.seqno ∧
      r.hides e = c.coveredByAppliedTombstone e.userKey e.seqno := by
  intro e he
  have hkey : head.userKey = k := ht.key head (by simp)
  have hle := hr.seqno
  rcases mem_cons.1 he with rfl | he
  · exact ⟨hkey, by omega, hr.hides_eq_covered hh hw rfl⟩
  · have hold := ht.older e he
    exact ⟨hold.1.trans hkey, by omega, hr.hides_eq_covered hh hw hold.1⟩

section Fold

variable {tail : List (InternalValue K V)} (hr : c.Serves r) (hm : c.mergeOperator = some m)
  (ht : c.KeyTail k below (head :: (ops ++ tail)))
  (hops : ∀ e ∈ head :: ops, e.valueType = .mergeOperand) (hw : head.seqno < c.gcSeqnoThreshold)
  (hh : r.hides head = false)

include ht in
/-- A covered operand hides everything under it. -/
theorem covered_under_operands
    (hany : (head :: ops).any (fun e => c.coveredByAppliedTombstone e.userKey e.seqno) = true) :
    ∀ f ∈ tail ++ below, c.coveredByAppliedTombstone f.userKey f.seqno = true := by
  intro f hf
  obtain ⟨e, he, hec⟩ := any_eq_true.1 hany
  have hpair := ht.newestFirst
  rw [cons_append, append_assoc, ← cons_append] at hpair
  have hlt := (pairwise_append.1 hpair).2.2 e he f hf
  have hkey : ∀ x ∈ head :: ops ++ (tail ++ below), x.userKey = k := by
    simpa using ht.key
  rw [hkey f (mem_append_right _ hf), ← hkey e (mem_append_left _ he)]
  exact covered_older hec hlt

include hr hm ht hops hw hh

theorem resolveFrom_gathered : r.resolveFrom k acc (head :: (ops ++ tail ++ below)) =
    if (head :: ops).any (fun e => c.coveredByAppliedTombstone e.userKey e.seqno) then
      settle (some m) k none (c.uncoveredOperands (head :: ops) ++ acc)
    else r.resolveFrom k (c.uncoveredOperands (head :: ops) ++ acc) (tail ++ below) := by
  have hhid : ∀ e ∈ head :: ops, e.userKey = k ∧ e.seqno < r.seqno ∧
      r.hides e = c.coveredByAppliedTombstone e.userKey e.seqno := fun e he =>
    ht.hides_eq hr hw hh e (by rcases mem_cons.1 he with rfl | he <;> simp [*])
  have hgather := resolveFrom_operands c acc (hr.mergeOperator.trans hm) (tail ++ below) hops
    (fun e he => (hhid e he).2.1) (fun e he => (hhid e he).2.2) (fun e he => (hhid e he).1)
    (ht.newestFirst.sublist (by simp))
  rwa [cons_append, ← append_assoc, hr.mergeOperator, hm] at hgather

variable {folded : InternalValue K V} (hvis : folded.seqno < r.seqno)
  (hshown : r.hides folded = false) (hne : c.uncoveredOperands (head :: ops) ≠ [])
include hvis hshown hne

/-- Operands folded among themselves: the base, if any, lies below. -/
theorem operands_keep (hfo : MergeLaws.FoldsOperands (m.merge k)) (htail : tail = [])
    (hty : folded.valueType = .mergeOperand)
    (hval : folded.value = m.merge k none (c.uncoveredOperands (head :: ops))) :
    r.resolveFrom k acc (folded :: below) =
      r.resolveFrom k acc (head :: (ops ++ tail ++ below)) := by
  have hmr := hr.mergeOperator.trans hm
  have hint := hfo.interchangeable (c.uncoveredOperands (head :: ops)) acc
  rw [resolveFrom_gathered hr hm ht hops hw hh, ReadView.resolveFrom_operand hvis hshown hty hmr,
    hval, htail, nil_append]
  split
  case isTrue hany =>
    have hall : ∀ e ∈ below, r.hides e = true := by
      intro e he
      rw [(ht.hides_eq hr hw hh e (by simp [he])).2.2]
      exact covered_under_operands ht hany e (mem_append_right _ he)
    rw [ReadView.resolveFrom_all_hidden hall, hmr, settle_some m k _ (by simp),
      settle_some m k _ (by simp [hne]), hint.merge_eq]
  case isFalse => exact ReadView.resolveFrom_interchange hmr hint (by simp) (by simp [hne])

/-- Operands folded onto the value or the delete under them. -/
theorem base_keeps (hfb : MergeLaws.FoldsBase (m.merge k)) {x : InternalValue K V}
    {xs : List (InternalValue K V)} {base : Option V} (htail : tail = x :: xs)
    (hty : folded.valueType = .value)
    (hval : folded.value = m.merge k base (c.uncoveredOperands (head :: ops)))
    (hbase : (x.valueType = .value ∧ base =
        if c.coveredByAppliedTombstone k x.seqno then none else some x.value) ∨
      (x.isTombstone = true ∧ base = none)) :
    r.resolveFrom k acc (folded :: below) =
      r.resolveFrom k acc (head :: (ops ++ tail ++ below)) := by
  have hmr := hr.mergeOperator.trans hm
  have hx := ht.hides_eq hr hw hh x (by simp [htail])
  rw [resolveFrom_gathered hr hm ht hops hw hh, ReadView.resolveFrom_value hvis hshown hty, hval,
    hmr, settle_folded hfb]
  split
  case isTrue hany =>
    have hxc := covered_under_operands ht hany x (by simp [htail])
    rw [hx.1] at hxc
    have hnone : base = none := by
      rcases hbase with ⟨-, hb⟩ | ⟨-, hb⟩
      · rw [hb, if_pos hxc]
      · exact hb
    rw [hnone, settle_some m k _ (by simp [hne])]
  case isFalse =>
    rw [htail, cons_append]
    rcases hbase with ⟨hxty, hb⟩ | ⟨hxty, hb⟩
    · cases hxc : c.coveredByAppliedTombstone k x.seqno with
      | true =>
        rw [ReadView.resolveFrom_hidden (by rw [hx.2.2, hx.1, hxc]), hb, hxc, hmr,
          settle_some m k _ (by simp [hne])]
        simp
      | false =>
        rw [ReadView.resolveFrom_value hx.2.1 (by rw [hx.2.2, hx.1, hxc]) hxty, hb, hxc, hmr,
          settle_some m k _ (by simp [hne])]
        simp
    · rw [ReadView.resolveFrom_tombstone hx.2.1 hxty, hb, hmr, settle_some m k _ (by simp [hne])]

omit hh hvis hshown hne in
theorem fold_keeps (hfo : MergeLaws.FoldsOperands (m.merge k))
    (hfb : MergeLaws.FoldsBase (m.merge k)) (folded : InternalValue K V)
    (hkey : folded.userKey = head.userKey) (hseq : folded.seqno = head.seqno)
    (hfold : (tail = [] ∧ folded.valueType = .mergeOperand ∧
        folded.value = m.merge k none (c.uncoveredOperands (head :: ops))) ∨
      ∃ x xs base, tail = x :: xs ∧ folded.valueType = .value ∧
        folded.value = m.merge k base (c.uncoveredOperands (head :: ops)) ∧
        ((x.valueType = .value ∧ base =
          if c.coveredByAppliedTombstone k x.seqno then none else some x.value) ∨
        (x.isTombstone = true ∧ base = none))) :
    r.resolveFrom k acc ((c.emit folded pending inner).out.toList ++ below) =
      r.resolveFrom k acc (head :: (ops ++ tail) ++ below) := by
  have hhides : r.hides folded = r.hides head := by simp [ReadView.hides, hkey, hseq]
  rw [cons_append]
  cases hh : r.hides head with
  | true =>
    rw [ReadView.resolveFrom_hidden hh]
    unfold emit
    split
    · exact resolveFrom_under_hidden ht hh (by simp +contextual)
    · exact ReadView.resolveFrom_hidden (by rw [hhides, hh])
  | false =>
    obtain ⟨-, hvis, hcov⟩ := ht.hides_eq hr hw hh head mem_cons_self
    rw [hh] at hcov hhides
    have hemit : (c.emit folded pending inner).out.toList = [folded] := by
      simp [emit, hkey, hseq, ← hcov]
    have hne : c.uncoveredOperands (head :: ops) ≠ [] := by simp [uncoveredOperands, ← hcov]
    rw [hemit, singleton_append]
    rcases hfold with ⟨htail, hty, hval⟩ | ⟨x, xs, base, htail, hty, hval, hbase⟩
    · exact operands_keep hr hm ht hops hw hh (hseq ▸ hvis) hhides hne hfo htail hty hval
    · exact base_keeps hr hm ht hops hw hh (hseq ▸ hvis) hhides hne hfb htail hty hval hbase

end Fold

def Lawful (c : StreamConfig K V) (k : K) : Prop :=
  ∀ m, c.mergeOperator = some m →
    MergeLaws.FoldsOperands (m.merge k) ∧ MergeLaws.FoldsBase (m.merge k)

theorem collapse_keeps (hr : c.Serves r) (hl : c.Lawful k) (ht : c.KeyTail k below (head :: inner))
    (hop : head.valueType = .mergeOperand) (hw : head.seqno < c.gcSeqnoThreshold)
    (hplain : c.Keeps r k below [] inner)
    (hbail : ∀ ops x xs, inner = ops ++ x :: xs → (∀ e ∈ ops, e.valueType = .mergeOperand) →
      x.valueType = .indirection → c.Keeps r k below ops (x :: xs)) :
    c.TurnKeeps r k below (head :: inner) (c.collapse head [] inner) := by
  intro acc
  have hk : ∀ e ∈ inner, e.userKey = k := fun e he => ht.key e (by simp [he])
  have hhk : head.userKey = k := ht.key head (by simp)
  unfold collapse resolveWithOperator
  cases hm : c.mergeOperator with
  | none => exact emit_keeps _ _ _ hr ht hplain
  | some m =>
    obtain ⟨hfo, hfb⟩ := hl m hm
    obtain ⟨tail, hsplit, hops, hend⟩ := collectOperands_split (c := c) hk
    have hops' : ∀ e ∈ head :: (c.collectOperands k inner).1, e.valueType = .mergeOperand := by
      simpa [hop] using hops
    have ht' := ht
    rw [hsplit] at ht'
    simp only [resolveMergeOperands, hhk, nil_append]
    conv_rhs => rw [hsplit]
    cases hl : (c.collectOperands k inner).2.1 with
    | exhausted =>
      obtain ⟨rfl, hrest⟩ := by simpa only [hl] using hend
      simp only [emit_pending, emit_inner, hrest, run_nil, nil_append]
      refine fold_keeps hr hm ht' hops' hw hfo hfb _ ?_ ?_ (Or.inl ⟨rfl, ?_, ?_⟩)
      · exact hhk.symm
      all_goals rfl
    | boundary base =>
      obtain ⟨hrest, x, xs, rfl, hbase⟩ := by simpa only [hl] using hend
      simp only [emit_pending, emit_inner, hrest, run_nil, nil_append]
      refine fold_keeps hr hm ht' hops' hw hfo hfb _ ?_ ?_
        (Or.inr ⟨x, xs, base, rfl, ?_, ?_, hbase⟩)
      · exact hhk.symm
      all_goals rfl
    | indirection =>
      obtain ⟨hrest, x, xs, rfl, hx⟩ := by simpa only [hl] using hend
      simp only [hrest]
      exact emit_keeps _ _ _ hr ht' (hbail _ x xs hsplit hops hx)

theorem turn_pending {x : InternalValue K V} {xs : List (InternalValue K V)}
    (hop : head.valueType = .mergeOperand) (hx : x.valueType = .indirection)
    (hk : x.userKey = head.userKey) :
    c.turn head pending (x :: xs) = c.emit head pending (x :: xs) := by
  have hop' : head.isMergeOperand = true := by simp [InternalValue.isMergeOperand, hop]
  have hres : c.resolveWithOperator head (x :: xs) = (head, [], x :: xs) := by
    unfold resolveWithOperator
    cases c.mergeOperator with
    | none => rfl
    | some m => simp [resolveMergeOperands, collectOperands, hk, hx]
  simp only [turn, turnShadowing, hk, if_true, hop, hop', hx, collapse, hres, append_nil,
    reduceCtorEq, false_and, if_false, ite_self]

theorem turn_keeps (hr : c.Serves r) (hl : c.Lawful k) (ht : c.KeyTail k below (head :: inner))
    (hplain : c.Keeps r k below [] inner)
    (hbail : ∀ ops x xs, inner = ops ++ x :: xs → (∀ e ∈ ops, e.valueType = .mergeOperand) →
      x.valueType = .indirection → c.Keeps r k below ops (x :: xs)) :
    c.TurnKeeps r k below (head :: inner) (c.turn head [] inner) := by
  have hk : ∀ e ∈ inner, e.userKey = k := fun e he => ht.key e (by simp [he])
  have hhk : head.userKey = k := ht.key head (by simp)
  have hwr := hr.seqno
  have hemit : c.TurnKeeps r k below (head :: inner) (c.emit head [] inner) :=
    fun acc => emit_keeps _ _ _ hr ht hplain
  have hcollapse : head.isMergeOperand = true → head.seqno < c.gcSeqnoThreshold →
      c.TurnKeeps r k below (head :: inner) (c.collapse head [] inner) :=
    fun hop hw => collapse_keeps hr hl ht (by simpa [InternalValue.isMergeOperand] using hop)
      hw hplain hbail
  -- dropping a tombstone with everything under it
  have hdrop : head.isTombstone = true → head.seqno < c.gcSeqnoThreshold → below = [] →
      c.TurnKeeps r k below (head :: inner) ⟨none, [], []⟩ := by
    intro hto hw hb acc
    rw [cons_append, ReadView.resolveFrom_tombstone (by omega) hto]
    simp [hb]
  cases inner with
  | nil =>
    simp only [turn, turnLast]
    split_ifs with h1 h2
    · intro acc
      rw [Bool.and_eq_true] at h1
      have hb := ht.bottom h1.2 (by simp)
      simp only [hb, Option.toList_none, run_nil, append_nil, ReadView.resolveFrom_nil]
      by_cases hv : r.seqno ≤ head.seqno
      · rw [ReadView.resolveFrom_invisible hv, ReadView.resolveFrom_nil]
      · rw [ReadView.resolveFrom_tombstone (by omega) h1.1]
    · simp only [Bool.and_eq_true, decide_eq_true_eq] at h2
      exact hcollapse h2.1 h2.2
    · exact hemit
  | cons x xs =>
    have hx : x.userKey = head.userKey := by rw [hhk]; exact hk x (by simp)
    have hd : drainKey head.userKey (x :: xs) = [] := by rw [hhk]; exact drainKey_own hk
    simp only [turn, hx, if_true, turnShadowing, hd]
    split_ifs with h1 h2 h3 h4 h5 h6
    · exact hdrop (by simp [InternalValue.isTombstone, ValueType.isTombstone, h1.1]) h1.2.2
        (ht.bottom h1.2.1 (by simp))
    · refine hdrop (by simp [InternalValue.isTombstone, ValueType.isTombstone, h2.1]) h2.2.2 ?_
      by_contra hb
      have := ht.weak hb [] head (x :: xs ++ below) (by simp) h2.1
      simp only [length_append, length_cons] at this
      exact hb (length_eq_zero_iff.1 (by omega))
    · exact hcollapse h4 h5
    · exact hemit
    · -- the versions under a value or a delete below the watermark are out of reach
      intro acc
      have hterm := emit_keeps acc [] [] hr (by simpa using ht.keepHead) fun _ => rfl
      rw [nil_append] at hterm
      simp only [emit_pending, emit_inner, run_nil, nil_append]
      rw [cons_append]
      refine Eq.trans hterm (ReadView.resolveFrom_terminal (by omega) ?_ _)
      simpa [InternalValue.isMergeOperand] using h4
    · exact hemit
    · exact hemit

theorem run_keeps (hr : c.Serves r) (hl : c.Lawful k) (pending inner : List (InternalValue K V))
    (ht : c.KeyTail k below (pending ++ inner))
    (hp : pending ≠ [] → (∀ e ∈ pending, e.valueType = .mergeOperand) ∧
      ∃ x xs, inner = x :: xs ∧ x.valueType = .indirection) :
    c.Keeps r k below pending inner := by
  induction hn : pending.length + inner.length using Nat.strong_induction_on
    generalizing pending inner with
  | _ n ih =>
    intro acc
    cases pending with
    | cons head pending =>
      obtain ⟨hops, x, xs, rfl, hx⟩ := hp (by simp)
      have hxk : x.userKey = head.userKey := by
        rw [ht.key x (by simp), ht.key head (by simp)]
      rw [run_pending, turn_pending (hops head (by simp)) hx hxk, append_assoc,
        cons_append, cons_append]
      refine emit_keeps _ _ _ hr ht (ih _ ?_ pending (x :: xs) (ht.tail [head]) ?_ rfl)
      · simp only [length_cons] at hn ⊢
        omega
      · exact fun _ => ⟨fun e he => hops e (by simp [he]), x, xs, rfl, hx⟩
    | nil =>
      cases inner with
      | nil => simp
      | cons head inner =>
        rw [run_input, nil_append, append_assoc]
        refine turn_keeps hr hl ht ?_ ?_ acc
        · exact ih _ (by simp at hn ⊢; omega) [] inner (ht.tail [head])
            (fun h => absurd rfl h) rfl
        · rintro ops x xs rfl hops hx
          exact ih _ (by simp at hn ⊢; omega) ops (x :: xs) (ht.tail [head])
            (fun _ => ⟨hops, x, xs, rfl, hx⟩) rfl

end OneKey

/-- What a stream is handed: sorted entries, nothing of its keys below when it evicts tombstones,
and weak deletes only over a single write. -/
structure Input (c : StreamConfig K V) (input below : List (InternalValue K V)) : Prop where
  sorted : input.Pairwise InternalValue.Before
  belowSorted : below.Pairwise InternalValue.Before
  older : ∀ a ∈ input, ∀ b ∈ below, a.userKey = b.userKey → b.seqno < a.seqno
  bottom : c.evictTombstones = true → ∀ a ∈ input, ∀ b ∈ below, a.userKey ≠ b.userKey
  weak : ∀ e ∈ input ++ below, e.valueType = .weakTombstone →
    ∀ x ∈ input ++ below, ∀ y ∈ input ++ below, x.userKey = e.userKey → y.userKey = e.userKey →
      x.seqno < e.seqno → y.seqno < e.seqno → x.seqno = y.seqno

theorem newestFirst_filter {es : List (InternalValue K V)} (h : es.Pairwise InternalValue.Before)
    (k : K) : (es.filter fun e => e.userKey = k).Pairwise fun a b => b.seqno < a.seqno := by
  rw [pairwise_filter]
  refine h.imp fun {a b} hab ha hb => ?_
  have hk : a.userKey = b.userKey := by
    rw [of_decide_eq_true ha, of_decide_eq_true hb]
  rcases hab with hlt | ⟨-, hlt⟩
  · exact absurd hlt (by rw [hk]; exact lt_irrefl _)
  · exact hlt

theorem newestFirst_filter_le {es : List (InternalValue K V)}
    (h : es.Pairwise fun a b => a.le b = true) (k : K) :
    (es.filter fun e => e.userKey = k).Pairwise fun a b => b.seqno ≤ a.seqno := by
  rw [pairwise_filter]
  refine h.imp fun {a b} hab ha hb => ?_
  have hk : a.userKey = b.userKey := by rw [of_decide_eq_true ha, of_decide_eq_true hb]
  rcases InternalValue.le_iff.1 hab with hlt | hle
  · exact absurd hlt (by rw [hk]; exact lt_irrefl _)
  · exact hle.2

theorem Input.keyTail {input below : List (InternalValue K V)} (h : c.Input input below) (k : K) :
    c.KeyTail k (below.filter fun e => e.userKey = k) (input.filter fun e => e.userKey = k) := by
  have hsorted : (input.filter (fun e => e.userKey = k) ++
      below.filter fun e => e.userKey = k).Pairwise fun a b => b.seqno < a.seqno := by
    refine pairwise_append.2 ⟨newestFirst_filter h.sorted k,
      newestFirst_filter h.belowSorted k, fun a ha b hb => ?_⟩
    simp only [mem_filter, decide_eq_true_eq] at ha hb
    exact h.older a ha.1 b hb.1 (by rw [ha.2, hb.2])
  have hmem : ∀ e ∈ input.filter (fun e => e.userKey = k) ++
      below.filter (fun e => e.userKey = k), e ∈ input ++ below ∧ e.userKey = k := by
    intro e he
    simp only [mem_append, mem_filter, decide_eq_true_eq] at he ⊢
    tauto
  refine ⟨fun e he => (hmem e he).2, hsorted.imp le_of_lt, fun hev hne => ?_, ?_⟩
  · obtain ⟨a, ha⟩ := exists_mem_of_ne_nil _ hne
    refine filter_eq_nil_iff.2 fun b hb hbk => ?_
    simp only [mem_filter, decide_eq_true_eq] at ha hbk
    exact h.bottom hev a ha.1 b hb (by rw [ha.2, hbk])
  · intro _ newer e older heq hty
    rw [← heq] at hsorted hmem
    have hp := (pairwise_append.1 hsorted).2.1
    rw [pairwise_cons] at hp
    rcases older with _ | ⟨x, _ | ⟨y, older⟩⟩
    · simp
    · simp
    · have hxy : y.seqno < x.seqno := (pairwise_cons.1 hp.2).1 y (by simp)
      have he := hmem e (by simp)
      have hx := hmem x (by simp)
      have hy := hmem y (by simp)
      have := h.weak e he.1 hty x hx.1 y hy.1 (by rw [hx.2, he.2]) (by rw [hy.2, he.2])
        (hp.1 x (by simp)) (hp.1 y (by simp))
      omega

/-- Running entries through the stream changes no read at or above the watermark. -/
theorem compactionStream_preserves_resolve {r : ReadView K V}
    {input below : List (InternalValue K V)} (hr : c.Serves r) (hl : ∀ k, c.Lawful k)
    (h : c.Input input below) (k : K) :
    r.resolve k (c.compactionStream input ++ below) = r.resolve k (input ++ below) := by
  have hkeys : input.Pairwise fun a b => a.userKey ≤ b.userKey :=
    h.sorted.imp fun hab => hab.elim le_of_lt fun hab => le_of_eq hab.1
  unfold ReadView.resolve
  rw [filter_append, filter_append, compactionStream_filter k hkeys]
  exact run_keeps hr (hl k) [] _ (h.keyTail k) (fun hne => absurd rfl hne) []

section Examples

/-- Concatenates, and marks every base it is given. -/
def markBase : MergeOperator ℕ (List ℕ) where
  merge _ base ops :=
    match base with
    | none => ops.flatten
    | some b => 0 :: b ++ ops.flatten

def concatOperator : MergeOperator ℕ (List ℕ) where
  merge _ base ops := base.getD [] ++ ops.flatten

def operandsOverValue : List (InternalValue ℕ (List ℕ)) :=
  [⟨0, 10, .mergeOperand, [3]⟩, ⟨0, 3, .mergeOperand, [2]⟩, ⟨0, 1, .value, [1]⟩]

def watermarkFive (m : MergeOperator ℕ (List ℕ)) : StreamConfig ℕ (List ℕ) :=
  ⟨5, false, some m, [⟨7, 9, 4⟩]⟩

def readerAtEleven (m : MergeOperator ℕ (List ℕ)) : ReadView ℕ (List ℕ) :=
  ⟨11, [⟨7, 9, 4⟩], id, some m⟩

theorem operandsOverValue_input (m : MergeOperator ℕ (List ℕ)) :
    (watermarkFive m).Input operandsOverValue [] where
  sorted := by decide
  belowSorted := by decide
  older := by simp
  bottom := by simp
  weak := by decide

/-- Folding operands among themselves is not enough: the fold below the watermark also
makes its result the base of the operands above it. -/
theorem foldsOperands_not_enough :
    (∀ k, MergeLaws.FoldsOperands (markBase.merge k)) ∧
    (watermarkFive markBase).Input operandsOverValue [] ∧
    (watermarkFive markBase).Serves (readerAtEleven markBase) ∧
    (readerAtEleven markBase).resolve 0 ((watermarkFive markBase).compactionStream
      operandsOverValue ++ []) ≠ (readerAtEleven markBase).resolve 0 (operandsOverValue ++ []) := by
  refine ⟨fun k b xs ys zs => ?_, operandsOverValue_input _, ⟨rfl, rfl, by decide⟩, by decide⟩
  cases b <;> simp [markBase]

theorem concatOperator_folds (k : ℕ) : MergeLaws.FoldsOperands (concatOperator.merge k) ∧
    MergeLaws.FoldsBase (concatOperator.merge k) :=
  ⟨fun b xs ys zs => by simp [concatOperator], fun b xs ys => by simp [concatOperator]⟩

theorem compactionStream_preserves_resolve_concat :
    (readerAtEleven concatOperator).resolve 0 ((watermarkFive concatOperator).compactionStream
      operandsOverValue ++ []) = some [1, 2, 3] := by
  rw [compactionStream_preserves_resolve ⟨rfl, rfl, by decide⟩
    (fun k m hm => by cases hm; exact concatOperator_folds k) (operandsOverValue_input _)]
  decide

end Examples

end LsmTree.StreamConfig
