import LsmTree.Compaction.StreamReads
import LsmTree.Compaction.Worker

/-! Sequence numbers at the bottom of the tree: the fold of a compaction into the last level,
followed by `BottommostSeqnoZeroer`. -/
namespace LsmTree

open List

variable {K V : Type*} [LinearOrder K]

namespace StreamConfig

/-- The fold of a compaction into the last level: tombstones are evicted, and the version's range
tombstones are applied. -/
def bottommost (watermark : ℕ) (op : Option (MergeOperator K V)) (rts : List (RangeTombstone K)) :
    StreamConfig K V :=
  ⟨watermark, true, op, rts⟩

section Remaining

variable (c : StreamConfig K V)

def folds (older : List (InternalValue K V)) : Bool :=
  c.mergeOperator.isSome &&
    !(older.dropWhile (·.isMergeOperand)).head?.any fun e => e.valueType == .indirection

/-- The versions of one key, newest first, that a fold into the last level leaves. -/
def remaining : List (InternalValue K V) → List (InternalValue K V)
  | [] => []
  | e :: older =>
    if c.gcSeqnoThreshold ≤ e.seqno then
      if e.isTombstone && older.isEmpty then [] else e :: remaining older
    else match e.valueType with
      | .value | .indirection => [e]
      | .tombstone => []
      | .weakTombstone => if older.head?.all fun x => x.valueType == .value then [] else [e]
      | .mergeOperand => if c.folds older then [e] else e :: remaining older

def uncovered (es : List (InternalValue K V)) : List (InternalValue K V) :=
  es.filter fun e => !c.coveredByAppliedTombstone e.userKey e.seqno

end Remaining

section Seqnos

variable {c : StreamConfig K V} {k : K} {head : InternalValue K V}
  {inner pending : List (InternalValue K V)}

theorem uncovered_cons (e : InternalValue K V) (es : List (InternalValue K V)) :
    c.uncovered (e :: es) = c.uncovered [e] ++ c.uncovered es := by
  rw [uncovered, ← singleton_append, filter_append]
  rfl

variable (head) in
theorem emit_seqnos {e : InternalValue K V} (hk : e.userKey = head.userKey)
    (hs : e.seqno = head.seqno) (pending inner : List (InternalValue K V)) :
    (c.emit e pending inner).out.toList.map (·.seqno) = (c.uncovered [head]).map (·.seqno) := by
  simp only [emit, uncovered, hk, hs, filter_cons, filter_nil]
  cases c.coveredByAppliedTombstone head.userKey head.seqno <;> simp [hs]

theorem folds_iff {m : MergeOperator K V} (hm : c.mergeOperator = some m)
    (hk : ∀ e ∈ inner, e.userKey = k) :
    c.folds inner = true ↔ (c.collectOperands k inner).2.1 ≠ .indirection := by
  obtain ⟨tail, hsplit, hops, hend⟩ := collectOperands_split (c := c) hk
  have hdrop : inner.dropWhile (·.isMergeOperand) = tail.dropWhile (·.isMergeOperand) := by
    conv_lhs => rw [hsplit]
    exact dropWhile_append_of_pos fun e he => by
      simp [InternalValue.isMergeOperand, hops e he]
  simp only [folds, hm, Option.isSome_some, Bool.true_and, hdrop]
  cases hl : (c.collectOperands k inner).2.1 with
  | exhausted =>
    obtain ⟨rfl, -⟩ := by simpa only [hl] using hend
    simp
  | indirection =>
    obtain ⟨-, x, xs, rfl, hx⟩ := by simpa only [hl] using hend
    simp [InternalValue.isMergeOperand, hx]
  | boundary base =>
    obtain ⟨-, x, xs, rfl, hx⟩ := by simpa only [hl] using hend
    rcases hx with ⟨hx, -⟩ | ⟨hx, -⟩
    · simp [InternalValue.isMergeOperand, hx]
    · have hop := InternalValue.not_operand_of_isTombstone hx
      have hty : x.valueType ≠ .indirection := by
        intro h
        simp [InternalValue.isTombstone, ValueType.isTombstone, h] at hx
      simp [hop, hty]

variable {x : InternalValue K V} {ops xs : List (InternalValue K V)}

omit [LinearOrder K] in
theorem remaining_putBack (hx : x.valueType = .indirection)
    (hops : ∀ e ∈ ops, e.valueType = .mergeOperand)
    (hw : ∀ e ∈ ops ++ x :: xs, e.seqno < c.gcSeqnoThreshold) :
    c.remaining (ops ++ x :: xs) = ops ++ [x] := by
  induction ops with
  | nil => simp [remaining, hx, Nat.not_le.2 (hw x (by simp))]
  | cons e ops ih =>
    have hfold : c.folds (ops ++ x :: xs) = false := by
      have hdrop : (ops ++ x :: xs).dropWhile (·.isMergeOperand) = x :: xs := by
        rw [dropWhile_append_of_pos fun e he => by
          simp [InternalValue.isMergeOperand, hops e (by simp [he])]]
        simp [InternalValue.isMergeOperand, hx]
      simp [folds, hdrop, hx]
    have hlt : ¬ c.gcSeqnoThreshold ≤ e.seqno := Nat.not_le.2 (hw e (by simp))
    rw [cons_append, remaining, if_neg hlt, hops e (by simp)]
    simp only [hfold, Bool.false_eq_true, if_false, cons_append]
    rw [ih (fun f hf => hops f (by simp [hf])) fun f hf => hw f (by simp [hf])]

theorem run_putBack_seqnos (hx : x.valueType = .indirection)
    (hops : ∀ e ∈ ops, e.valueType = .mergeOperand) (hk : ∀ e ∈ ops ++ x :: xs, e.userKey = k)
    (hw : ∀ e ∈ ops ++ x :: xs, e.seqno < c.gcSeqnoThreshold) :
    (c.run ops (x :: xs)).map (·.seqno) = (c.uncovered (ops ++ [x])).map (·.seqno) := by
  induction ops with
  | nil =>
    have hxs : drainKey x.userKey xs = [] :=
      drainKey_own fun e he => by rw [hk e (by simp [he]), hk x (by simp)]
    have hturn : c.turn x [] xs = c.emit x [] [] := by
      cases xs with
      | nil =>
        simp [turn, turnLast, InternalValue.isTombstone, ValueType.isTombstone,
          InternalValue.isMergeOperand, hx]
      | cons y ys =>
        have hy : y.userKey = x.userKey := by rw [hk y (by simp), hk x (by simp)]
        have hyw := hw y (by simp)
        have hxw := hw x (by simp)
        simp [turn, turnShadowing, hy, InternalValue.isMergeOperand, hx, hyw, hxw, hxs]
    rw [run_input, hturn]
    simpa using emit_seqnos x rfl rfl [] []
  | cons e ops ih =>
    have hxe : x.userKey = e.userKey := by rw [hk x (by simp), hk e (by simp)]
    rw [run_pending, turn_pending (hops e (by simp)) hx hxe, cons_append, uncovered_cons,
      map_append, map_append, emit_seqnos e rfl rfl]
    simp only [emit_pending, emit_inner]
    rw [ih (fun f hf => hops f (by simp [hf])) (fun f hf => hk f (by simp_all))
      fun f hf => hw f (by simp_all)]

theorem collapse_seqnos (hk : ∀ e ∈ head :: inner, e.userKey = k)
    (hw : ∀ e ∈ head :: inner, e.seqno < c.gcSeqnoThreshold)
    (ih : (c.run [] inner).map (·.seqno) = (c.uncovered (c.remaining inner)).map (·.seqno)) :
    ((c.collapse head [] inner).out.toList ++
        c.run (c.collapse head [] inner).pending (c.collapse head [] inner).inner).map (·.seqno) =
      (c.uncovered (if c.folds inner then [head] else head :: c.remaining inner)).map
        (·.seqno) := by
  have hhk : head.userKey = k := hk head (by simp)
  have hik : ∀ e ∈ inner, e.userKey = k := fun e he => hk e (by simp [he])
  rw [map_append]
  unfold collapse resolveWithOperator
  cases hm : c.mergeOperator with
  | none =>
    have hfold : c.folds inner = false := by simp [folds, hm]
    rw [emit_seqnos head rfl rfl, hfold]
    simp only [emit_pending, emit_inner, append_nil, Bool.false_eq_true, if_false, ih]
    rw [uncovered_cons head (c.remaining inner), map_append]
  | some m =>
    obtain ⟨tail, hsplit, hops, hend⟩ := collectOperands_split (c := c) hik
    have hiff := folds_iff hm hik
    simp only [resolveMergeOperands, hhk, nil_append]
    cases hl : (c.collectOperands k inner).2.1 with
    | exhausted =>
      obtain ⟨-, hrest⟩ := by simpa only [hl] using hend
      have hfold : c.folds inner = true := hiff.2 (by simp [hl])
      simp only [emit_pending, emit_inner, hrest, run_nil, map_nil, append_nil, hfold,
        if_true]
      refine emit_seqnos head ?_ ?_ _ _
      · exact hhk.symm
      · rfl
    | boundary base =>
      obtain ⟨hrest, -⟩ := by simpa only [hl] using hend
      have hfold : c.folds inner = true := hiff.2 (by simp [hl])
      simp only [emit_pending, emit_inner, hrest, run_nil, map_nil, append_nil, hfold,
        if_true]
      refine emit_seqnos head ?_ ?_ _ _
      · exact hhk.symm
      · rfl
    | indirection =>
      obtain ⟨hrest, x, xs, rfl, hx⟩ := by simpa only [hl] using hend
      have hfold : c.folds inner = false := by
        rw [Bool.eq_false_iff, Ne, hiff, hl]
        simp
      have hmem : ∀ e ∈ (c.collectOperands k inner).1 ++ x :: xs, e ∈ inner := by
        rw [← hsplit]
        exact fun e he => he
      have hleft : c.remaining inner = (c.collectOperands k inner).1 ++ [x] := by
        conv_lhs => rw [hsplit]
        exact remaining_putBack hx hops fun e he => hw e (by simp [hmem e he])
      rw [emit_seqnos head rfl rfl]
      simp only [emit_pending, emit_inner, hrest, hfold, Bool.false_eq_true, if_false]
      rw [run_putBack_seqnos hx hops (fun e he => hik e (hmem e he))
        fun e he => hw e (by simp [hmem e he]), hleft,
        uncovered_cons head (_ ++ [x]), map_append]

theorem turn_high (hev : c.evictTombstones = true) (hk : ∀ e ∈ inner, e.userKey = head.userKey)
    (hw : c.gcSeqnoThreshold ≤ head.seqno) :
    c.turn head [] inner =
      if head.isTombstone && inner.isEmpty then ⟨none, [], inner⟩ else c.emit head [] inner := by
  have hlt : ¬ head.seqno < c.gcSeqnoThreshold := Nat.not_lt.2 hw
  cases inner with
  | nil => simp [turn, turnLast, hev, hlt]
  | cons x xs => simp [turn, turnShadowing, hk x (by simp), hlt]

theorem turn_low (hev : c.evictTombstones = true) (hk : ∀ e ∈ inner, e.userKey = head.userKey)
    (hw : ∀ e ∈ head :: inner, e.seqno < c.gcSeqnoThreshold)
    (hop : head.valueType ≠ .mergeOperand) :
    c.turn head [] inner =
      if c.remaining (head :: inner) = [] then ⟨none, [], []⟩ else c.emit head [] [] := by
  have hhw := hw head (by simp)
  have hnop : head.isMergeOperand = false := by simpa [InternalValue.isMergeOperand] using hop
  rw [remaining, if_neg (Nat.not_le.2 hhw)]
  cases inner with
  | nil =>
    cases hty : head.valueType <;>
      simp_all [turn, turnLast, InternalValue.isTombstone, ValueType.isTombstone]
  | cons x xs =>
    have hd : drainKey head.userKey (x :: xs) = [] := drainKey_own hk
    have hxw := hw x (by simp)
    simp only [turn, hk x (by simp), if_true, turnShadowing, hev, hhw, hxw, hnop, hd, and_true]
    cases hty : head.valueType with
    | mergeOperand => exact absurd hty hop
    | weakTombstone => by_cases hv : x.valueType = .value <;> simp [hv]
    | _ => simp

theorem turn_operand (hop : head.valueType = .mergeOperand)
    (hk : ∀ e ∈ inner, e.userKey = head.userKey)
    (hw : ∀ e ∈ head :: inner, e.seqno < c.gcSeqnoThreshold) :
    c.turn head [] inner = c.collapse head [] inner := by
  have hhw := hw head (by simp)
  have hop' : head.isMergeOperand = true := by simp [InternalValue.isMergeOperand, hop]
  cases inner with
  | nil => simp [turn, turnLast, hop', hhw, InternalValue.isTombstone, ValueType.isTombstone, hop]
  | cons x xs =>
    simp [turn, turnShadowing, hk x (by simp), hop, hop', hhw, hw x (by simp)]

omit [LinearOrder K] in
variable (inner) in
theorem remaining_low (hw : head.seqno < c.gcSeqnoThreshold)
    (hop : head.valueType ≠ .mergeOperand) :
    c.remaining (head :: inner) = [] ∨ c.remaining (head :: inner) = [head] := by
  rw [remaining, if_neg (Nat.not_le.2 hw)]
  cases hty : head.valueType with
  | mergeOperand => exact absurd hty hop
  | value => exact Or.inr rfl
  | indirection => exact Or.inr rfl
  | tombstone => exact Or.inl rfl
  | weakTombstone =>
    simp only
    split
    · exact Or.inl rfl
    · exact Or.inr rfl

theorem run_seqnos (hev : c.evictTombstones = true) {es : List (InternalValue K V)}
    (hk : ∀ e ∈ es, e.userKey = k) (hs : es.Pairwise fun a b => b.seqno ≤ a.seqno) :
    (c.run [] es).map (·.seqno) = (c.uncovered (c.remaining es)).map (·.seqno) := by
  induction es with
  | nil => rfl
  | cons head inner ih =>
    rw [pairwise_cons] at hs
    have hik : ∀ e ∈ inner, e.userKey = k := fun e he => hk e (by simp [he])
    have hhk : ∀ e ∈ inner, e.userKey = head.userKey := fun e he => by
      rw [hik e he, hk head (by simp)]
    have ih := ih hik hs.2
    rw [run_input]
    by_cases hw : c.gcSeqnoThreshold ≤ head.seqno
    · rw [turn_high hev hhk hw, remaining, if_pos hw]
      split
      · rename_i hlast
        have hnil : inner = [] := by simp_all
        simp [hnil, uncovered]
      · rw [map_append, emit_seqnos head rfl rfl, emit_pending, emit_inner, ih,
          uncovered_cons head (c.remaining inner), map_append]
    · have hlow : ∀ e ∈ head :: inner, e.seqno < c.gcSeqnoThreshold := by
        intro e he
        rcases mem_cons.1 he with rfl | he
        · exact Nat.lt_of_not_le hw
        · have := hs.1 e he
          omega
      by_cases hop : head.valueType = .mergeOperand
      · rw [turn_operand hop hhk hlow, collapse_seqnos hk hlow ih, remaining, if_neg hw, hop]
      · rw [turn_low hev hhk hlow hop]
        rcases remaining_low inner (hlow head (by simp)) hop with h | h
        · simp [h, uncovered]
        · rw [h, if_neg (by simp), map_append, emit_seqnos head rfl rfl]
          simp

end Seqnos

end StreamConfig

section Zeroing

variable {watermark : ℕ} {rts : List (RangeTombstone K)}

/-- The sequence number under which `BottommostSeqnoZeroer` passes a version of `k` on. -/
def zeroedSeqno (watermark : ℕ) (rts : List (RangeTombstone K)) (k : K) (seqno : ℕ) : ℕ :=
  if 0 < seqno ∧ seqno < watermark ∧ rts.any (fun rt => rt.contains k) = false then 0 else seqno

def zeroed (watermark : ℕ) (rts : List (RangeTombstone K)) (e : InternalValue K V) :
    InternalValue K V :=
  { e with seqno := zeroedSeqno watermark rts e.userKey e.seqno }

theorem zeroSeqnos_eq (items : List (InternalValue K V)) :
    zeroSeqnos true watermark rts items =
      items.map (zeroed watermark rts) := by
  rw [zeroSeqnos, if_pos rfl]
  refine map_congr_left fun e _ => ?_
  unfold zeroed zeroedSeqno
  split <;> rfl

theorem zeroedSeqno_ne_iff {k : K} {s t : ℕ} :
    zeroedSeqno watermark rts k s ≠ zeroedSeqno watermark rts k t ↔
      s ≠ t ∧ (s < watermark → t < watermark → rts.any (fun rt => rt.contains k) = true) := by
  unfold zeroedSeqno
  cases rts.any (fun rt => rt.contains k) with
  | true => simp
  | false =>
    simp only [and_true, Bool.false_eq_true, imp_false]
    split_ifs <;> omega

theorem zeroed_visible {r : ReadView K V} (hw : watermark ≤ r.seqno) (e : InternalValue K V) :
    r.seqno ≤ (zeroed watermark rts e).seqno ↔ r.seqno ≤ e.seqno := by
  simp only [zeroed, zeroedSeqno]
  split_ifs with hz
  · omega
  · exact Iff.rfl

theorem zeroed_hides {r : ReadView K V} (hr : ∀ rt ∈ r.rangeTombstones, rt ∈ rts)
    (e : InternalValue K V) : r.hides (zeroed watermark rts e) = r.hides e := by
  simp only [zeroed, zeroedSeqno]
  split_ifs with hz
  · -- no tombstone of the version contains the key of a zeroed entry
    have hnone : ∀ rt ∈ r.rangeTombstones, ¬ (rt.start ≤ e.userKey ∧ e.userKey < rt.stop) :=
      fun rt hrt hin => any_eq_false.1 hz.2.2 rt (hr rt hrt)
        (RangeTombstone.contains_iff.2 hin)
    rw [Bool.eq_iff_iff, ReadView.hides_iff, ReadView.hides_iff]
    constructor <;>
    · rintro ⟨rt, hrt, -, hin, -⟩
      exact absurd hin (hnone rt hrt)
  · rfl

theorem zeroSeqnos_resolve {r : ReadView K V} (hw : watermark ≤ r.seqno)
    (hr : ∀ rt ∈ r.rangeTombstones, rt ∈ rts) (k : K) (items : List (InternalValue K V)) :
    r.resolve k (zeroSeqnos true watermark rts items) = r.resolve k items := by
  have hwalk : ∀ acc, r.resolveFrom k acc
      ((items.map (zeroed watermark rts)).filter fun e => e.userKey = k) =
      r.resolveFrom k acc (items.filter fun e => e.userKey = k) := by
    induction items with
    | nil => exact fun _ => rfl
    | cons e items ih =>
      intro acc
      have hkey : (zeroed watermark rts e).userKey = e.userKey := rfl
      rw [map_cons, filter_cons, filter_cons, hkey]
      split
      · exact ReadView.resolveFrom_alike (by rfl) (by rfl) (zeroed_visible hw e)
          (zeroed_hides hr e) ih acc
      · exact ih acc
  rw [zeroSeqnos_eq]
  exact hwalk []

end Zeroing

section Output

variable {watermark : ℕ} {op : Option (MergeOperator K V)} {rts : List (RangeTombstone K)}
  {input : List (InternalValue K V)}

def bottommostOutput (watermark : ℕ) (op : Option (MergeOperator K V))
    (rts : List (RangeTombstone K)) (input : List (InternalValue K V)) :
    List (InternalValue K V) :=
  zeroSeqnos true watermark rts
    ((StreamConfig.bottommost watermark op rts).compactionStream input)

/-- Of the uncovered versions of `k` no two have one sequence number, and unless a range tombstone
contains `k` at most one is below the watermark. -/
def LeavesOneBelow (watermark : ℕ) (op : Option (MergeOperator K V))
    (rts : List (RangeTombstone K)) (k : K) (versions : List (InternalValue K V)) : Prop :=
  let c := StreamConfig.bottommost watermark op rts
  (c.uncovered (c.remaining versions)).Pairwise fun a b =>
    a.seqno ≠ b.seqno ∧
      (a.seqno < watermark → b.seqno < watermark → rts.any (fun rt => rt.contains k) = true)

instance (k : K) (versions : List (InternalValue K V)) :
    Decidable (LeavesOneBelow watermark op rts k versions) :=
  inferInstanceAs (Decidable (List.Pairwise _ _))

omit [LinearOrder K] in
theorem pairwise_by_key [DecidableEq K] {l : List (InternalValue K V)} (R : K → ℕ → ℕ → Prop) :
    l.Pairwise (fun a b => a.userKey = b.userKey → R a.userKey a.seqno b.seqno) ↔
      ∀ k, ((l.filter fun e => e.userKey = k).map (·.seqno)).Pairwise (R k) := by
  simp only [pairwise_map, pairwise_filter, decide_eq_true_eq]
  simp only [pairwise_iff_forall_sublist]
  constructor
  · rintro h k a b hab rfl hb
    exact h hab hb.symm
  · intro h a b hab hk
    exact h a.userKey hab rfl hk.symm

theorem bottommostOutput_nodup_iff (hs : input.Pairwise fun a b => a.le b = true) :
    ((bottommostOutput watermark op rts input).map fun e => (e.userKey, e.seqno)).Nodup ↔
      ∀ k, LeavesOneBelow watermark op rts k (input.filter fun e => e.userKey = k) := by
  let c := StreamConfig.bottommost watermark op rts
  have hkeys : input.Pairwise fun a b => a.userKey ≤ b.userKey :=
    hs.imp fun hab => InternalValue.le_key.1 hab
  have hseqnos : ∀ k, ((c.compactionStream input).filter fun e => e.userKey = k).map (·.seqno) =
      (c.uncovered (c.remaining (input.filter fun e => e.userKey = k))).map (·.seqno) := by
    intro k
    rw [StreamConfig.compactionStream_filter k hkeys]
    exact StreamConfig.run_seqnos rfl (fun e he => by simpa using (mem_filter.1 he).2)
      (StreamConfig.newestFirst_filter_le hs k)
  have hpair : ((bottommostOutput watermark op rts input).map fun e => (e.userKey, e.seqno)).Nodup ↔
      (c.compactionStream input).Pairwise fun a b => a.userKey = b.userKey →
        zeroedSeqno watermark rts a.userKey a.seqno ≠ zeroedSeqno watermark rts a.userKey b.seqno := by
    rw [bottommostOutput, zeroSeqnos_eq, map_map, List.Nodup, pairwise_map]
    refine List.Pairwise.iff fun {a b} => ?_
    simp only [Function.comp_apply, zeroed, ne_eq, Prod.mk.injEq, not_and]
    exact forall_congr' fun hk => by rw [hk]
  refine hpair.trans ((pairwise_by_key fun k s t =>
    zeroedSeqno watermark rts k s ≠ zeroedSeqno watermark rts k t).trans (forall_congr' fun k => ?_))
  rw [hseqnos, pairwise_map, LeavesOneBelow]
  exact List.Pairwise.iff fun {a b} => zeroedSeqno_ne_iff

/-- Behind the fold into the last level, zeroing never changes what a reader at or above the
watermark finds; the output is free of repeated internal keys exactly when the fold leaves at most
one version below the watermark of every key that no range tombstone contains. -/
theorem bottommostOutput_sound_iff (hs : input.Pairwise fun a b => a.le b = true) :
    (((bottommostOutput watermark op rts input).map fun e => (e.userKey, e.seqno)).Nodup ∧
      ∀ r : ReadView K V, watermark ≤ r.seqno → (∀ rt ∈ r.rangeTombstones, rt ∈ rts) → ∀ k,
        r.resolve k (bottommostOutput watermark op rts input) =
          r.resolve k ((StreamConfig.bottommost watermark op rts).compactionStream input)) ↔
    ∀ k, LeavesOneBelow watermark op rts k (input.filter fun e => e.userKey = k) := by
  rw [bottommostOutput_nodup_iff hs]
  exact and_iff_left fun r hw hr k => zeroSeqnos_resolve hw hr k _

end Output

section Examples

def sumOperator : MergeOperator ℕ ℕ where
  merge _ base ops := base.getD 0 + ops.sum

def operandsAtBottom : List (InternalValue ℕ ℕ) :=
  [⟨0, 5, .mergeOperand, 1⟩, ⟨0, 3, .indirection, 2⟩, ⟨1, 7, .mergeOperand, 1⟩, ⟨1, 4, .value, 2⟩]

/-- The operand over the handle is passed on unfolded, and both are zeroed. -/
theorem operandOverHandle_repeated :
    (operandsAtBottom.Pairwise fun a b => a.le b = true) ∧
    bottommostOutput 10 (some sumOperator) [] operandsAtBottom =
      [⟨0, 0, .mergeOperand, 1⟩, ⟨0, 0, .indirection, 2⟩, ⟨1, 0, .value, 3⟩] ∧
    ¬ ((bottommostOutput 10 (some sumOperator) [] operandsAtBottom).map
      fun e => (e.userKey, e.seqno)).Nodup := by decide

def foldedAtBottom : List (InternalValue ℕ ℕ) :=
  [⟨0, 10, .value, 9⟩, ⟨0, 5, .mergeOperand, 1⟩, ⟨0, 3, .value, 2⟩, ⟨1, 4, .indirection, 2⟩]

theorem foldedAtBottom_sound :
    ((bottommostOutput 10 (some sumOperator) [⟨3, 5, 8⟩] foldedAtBottom).map
      fun e => (e.userKey, e.seqno)) = [(0, 10), (0, 0), (1, 0)] ∧
    (((bottommostOutput 10 (some sumOperator) [⟨3, 5, 8⟩] foldedAtBottom).map
      fun e => (e.userKey, e.seqno)).Nodup ∧
      ∀ r : ReadView ℕ ℕ, 10 ≤ r.seqno → (∀ rt ∈ r.rangeTombstones, rt ∈ [⟨3, 5, 8⟩]) → ∀ k,
        r.resolve k (bottommostOutput 10 (some sumOperator) [⟨3, 5, 8⟩] foldedAtBottom) =
          r.resolve k ((StreamConfig.bottommost 10 (some sumOperator)
            [⟨3, 5, 8⟩]).compactionStream foldedAtBottom)) := by
  refine ⟨by decide, (bottommostOutput_sound_iff (by decide)).2 fun k => ?_⟩
  match k with
  | 0 => decide
  | 1 => decide
  | k + 2 => exact List.Pairwise.nil

end Examples

end LsmTree
