import LsmTree.Compaction.StreamReads

/-! The gc balance of `CompactionStream`: the versions taken from the input, less those that went
out and those whose drop is excused. -/
namespace LsmTree.StreamConfig

open List

variable {K V : Type*} [LinearOrder K]

structure Drained where
  total : ℕ
  allTombstones : Bool

def drained (k : K) (inner : List (InternalValue K V)) : Drained :=
  let gone := inner.takeWhile fun e => e.userKey = k
  ⟨gone.length, gone.all (·.isTombstone)⟩

/-- The versions a turn takes from the input behind its head, and those it then excuses. -/
structure Charge where
  taken : ℕ
  settled : ℕ
  deriving DecidableEq, Repr

section Model

variable (c : StreamConfig K V)

/-- A tombstone that the loop ends at is excused at the bottom, with an all-tombstone tail. -/
def collectCharge (k : K) : List (InternalValue K V) → Charge
  | [] => ⟨0, 0⟩
  | next :: inner =>
    if next.userKey = k then
      let d := drained k inner
      match next.valueType with
      | .indirection => ⟨0, 0⟩
      | .mergeOperand => { collectCharge k inner with taken := (collectCharge k inner).taken + 1 }
      | .value => ⟨d.total + 1, 0⟩
      | .tombstone | .weakTombstone =>
        ⟨d.total + 1, if c.evictTombstones && d.allTombstones then d.total + 1 else 0⟩
    else ⟨0, 0⟩

def collapseCharge (head : InternalValue K V) (inner : List (InternalValue K V)) : Charge :=
  match c.mergeOperator with
  | none => ⟨0, 0⟩
  | some _ => c.collectCharge head.userKey inner

def turnLastCharge (head : InternalValue K V) (inner : List (InternalValue K V)) : Charge :=
  -- `note_neutral_drop`
  if head.isTombstone && c.evictTombstones then ⟨0, 1⟩
  else if head.isMergeOperand && decide (head.seqno < c.gcSeqnoThreshold) then
    c.collapseCharge head inner
  else ⟨0, 0⟩

def turnShadowingCharge (head peeked : InternalValue K V) (inner : List (InternalValue K V)) :
    Charge :=
  let d := drained head.userKey inner
  if head.valueType = .tombstone ∧ c.evictTombstones = true ∧ head.seqno < c.gcSeqnoThreshold then
    ⟨d.total, if d.allTombstones then d.total + 1 else 0⟩
  else if head.valueType = .weakTombstone ∧ peeked.valueType = .value ∧
      head.seqno < c.gcSeqnoThreshold then ⟨d.total, 0⟩
  else if peeked.seqno < c.gcSeqnoThreshold then
    if head.isMergeOperand then
      if head.seqno < c.gcSeqnoThreshold then c.collapseCharge head inner else ⟨0, 0⟩
    else if head.seqno < c.gcSeqnoThreshold then
      ⟨d.total, if c.evictTombstones && d.allTombstones then d.total else 0⟩
    else ⟨0, 0⟩
  else ⟨0, 0⟩

def turnCharge (head : InternalValue K V) (inner : List (InternalValue K V)) : Charge :=
  match inner with
  | [] => c.turnLastCharge head inner
  | peeked :: _ =>
    if peeked.userKey = head.userKey then c.turnShadowingCharge head peeked inner
    else c.turnLastCharge head inner

def nextCharge : List (InternalValue K V) → List (InternalValue K V) → Charge
  | head :: _, inner => c.turnCharge head inner
  | [], head :: inner => { c.turnCharge head inner with taken := (c.turnCharge head inner).taken + 1 }
  | [], [] => ⟨0, 0⟩

/-- Nothing where the counter would wrap around. -/
def settleVersions (n balance : ℕ) : Option ℕ :=
  if n ≤ balance then some (balance - n) else none

def balanceFuel : ℕ → ℕ → List (InternalValue K V) → List (InternalValue K V) → Option ℕ
  | 0, balance, _, _ => some balance
  | fuel + 1, balance, pending, inner =>
    match c.nextTurn pending inner with
    | none => some balance
    | some t => do
      let charge := c.nextCharge pending inner
      let balance ← settleVersions charge.settled (balance + charge.taken)
      -- an entry that goes out settles itself
      let balance ← settleVersions t.out.toList.length balance
      balanceFuel fuel balance t.pending t.inner

def gcBalance (input : List (InternalValue K V)) : Option ℕ :=
  c.balanceFuel input.length 0 [] input

end Model

section Alike

variable {c : StreamConfig K V} {xs ys zs : List (InternalValue K V)} {e f : InternalValue K V}
  {k : K}

/-- Two lists of entries that no reader of the tree tells apart, at any snapshot. -/
def Alike (c : StreamConfig K V) (xs ys : List (InternalValue K V)) : Prop :=
  ∀ r : ReadView K V, r.mergeOperator = c.mergeOperator → ∀ k acc,
    r.resolveFrom k acc (xs.filter fun e => e.userKey = k) =
      r.resolveFrom k acc (ys.filter fun e => e.userKey = k)

theorem Alike.refl (xs : List (InternalValue K V)) : c.Alike xs xs := fun _ _ _ _ => rfl

theorem Alike.trans (h : c.Alike xs ys) (h' : c.Alike ys zs) : c.Alike xs zs :=
  fun r hr k acc => (h r hr k acc).trans (h' r hr k acc)

theorem Alike.cons (e : InternalValue K V) (h : c.Alike xs ys) : c.Alike (e :: xs) (e :: ys) := by
  intro r hr k acc
  rw [filter_cons, filter_cons]
  split
  · exact ReadView.resolveFrom_cons_congr e (h r hr k) acc
  · exact h r hr k acc

theorem Alike.of_key {rest : List (InternalValue K V)} (hx : ∀ e ∈ xs, e.userKey = k)
    (hy : ∀ e ∈ ys, e.userKey = k) (hrest : ∀ e ∈ rest, e.userKey ≠ k)
    (h : ∀ r : ReadView K V, r.mergeOperator = c.mergeOperator → ∀ acc,
      r.resolveFrom k acc xs = r.resolveFrom k acc ys) : c.Alike (xs ++ rest) (ys ++ rest) := by
  intro r hr k' acc
  rw [filter_append, filter_append]
  by_cases hk : k' = k
  · subst hk
    have hnil : rest.filter (fun e => e.userKey = k') = [] :=
      filter_eq_nil_iff.2 fun e he => by simpa using hrest e he
    rw [hnil, filter_eq_self.2 (by simpa using hx), filter_eq_self.2 (by simpa using hy),
      append_nil, append_nil, h r hr acc]
  · have hne : ∀ zs : List (InternalValue K V), (∀ e ∈ zs, e.userKey = k) →
        zs.filter (fun e => e.userKey = k') = [] := fun zs hz =>
      filter_eq_nil_iff.2 fun e he => by simpa [hz e he] using fun h => hk h.symm
    rw [hne xs hx, hne ys hy]

theorem resolveFrom_tombstones {r : ReadView K V} (h : ∀ e ∈ xs, e.isTombstone = true)
    (acc : List V) : r.resolveFrom k acc xs = LsmTree.settle r.mergeOperator k none acc := by
  induction xs with
  | nil => rfl
  | cons e xs ih =>
    by_cases hv : r.seqno ≤ e.seqno
    · rw [ReadView.resolveFrom_invisible hv, ih fun f hf => h f (by simp [hf])]
    · exact ReadView.resolveFrom_tombstone (by omega) (h e (by simp))

theorem Alike.tombstones {rest : List (InternalValue K V)} (hx : ∀ e ∈ xs, e.userKey = k)
    (ht : ∀ e ∈ xs, e.isTombstone = true) (hrest : ∀ e ∈ rest, e.userKey ≠ k) :
    c.Alike rest (xs ++ rest) := by
  have h : c.Alike ([] ++ rest) (xs ++ rest) :=
    Alike.of_key (by simp) hx hrest fun r _ acc => (resolveFrom_tombstones ht acc).symm
  exact h

end Alike

section Turns

variable {c : StreamConfig K V} {k : K} {head : InternalValue K V}
  {inner : List (InternalValue K V)}

theorem drain_split (hs : inner.Pairwise fun a b => a.userKey ≤ b.userKey)
    (hk : ∀ e ∈ inner, k ≤ e.userKey) :
    ∃ gone, inner = gone ++ drainKey k inner ∧ (∀ e ∈ gone, e.userKey = k) ∧
      (∀ e ∈ drainKey k inner, e.userKey ≠ k) ∧
      drained k inner = ⟨gone.length, gone.all (·.isTombstone)⟩ :=
  ⟨inner.takeWhile fun e => e.userKey = k, takeWhile_append_dropWhile.symm,
    fun e he => by simpa using mem_takeWhile_imp he, dropWhile_key_ne hs hk, rfl⟩

structure Accounts (c : StreamConfig K V) (t : Turn K V) (charge : Charge)
    (head : InternalValue K V) (inner : List (InternalValue K V)) : Prop where
  covers : charge.settled + t.out.toList.length + t.pending.length ≤ charge.taken + 1
  neutral : c.Lawful head.userKey →
    charge.settled + t.out.toList.length + t.pending.length = charge.taken + 1 →
      ∀ xs, c.Alike xs (t.pending ++ t.inner) → c.Alike (t.out.toList ++ xs) (head :: inner)

theorem emit_out_cases (e : InternalValue K V) (pending inner : List (InternalValue K V)) :
    (c.emit e pending inner).out.toList = [] ∨ (c.emit e pending inner).out.toList = [e] ∧
      c.coveredByAppliedTombstone e.userKey e.seqno = false := by
  unfold emit
  split
  · exact Or.inl rfl
  · rename_i hc
    exact Or.inr ⟨rfl, Bool.eq_false_iff.2 hc⟩

theorem emit_accounts {e : InternalValue K V} {pending inner' : List (InternalValue K V)}
    {charge : Charge} (hcover : charge.settled + pending.length ≤ charge.taken)
    (h : c.Lawful head.userKey → c.coveredByAppliedTombstone e.userKey e.seqno = false →
      charge.settled + pending.length = charge.taken →
      c.Alike (e :: (pending ++ inner')) (head :: inner)) :
    c.Accounts (c.emit e pending inner') charge head inner := by
  rcases emit_out_cases (c := c) e pending inner' with hout | ⟨hout, hcov⟩
  · constructor
    · rw [hout, emit_pending, length_nil]
      omega
    · intro _ heq
      rw [hout, emit_pending, length_nil] at heq
      omega
  · constructor
    · rw [hout, emit_pending, length_singleton]
      omega
    · intro hl heq xs hxs
      rw [hout, emit_pending, length_singleton] at heq
      rw [hout]
      exact (Alike.cons e hxs).trans (h hl hcov (by omega))

theorem silent_accounts {inner' : List (InternalValue K V)} {charge : Charge}
    (hcover : charge.settled ≤ charge.taken + 1)
    (h : charge.settled = charge.taken + 1 → c.Alike inner' (head :: inner)) :
    c.Accounts ⟨none, [], inner'⟩ charge head inner :=
  ⟨hcover, fun _ heq _ hxs => hxs.trans (h heq)⟩

theorem collect_shape (hs : inner.Pairwise fun a b => a.userKey ≤ b.userKey)
    (hk : ∀ e ∈ inner, k ≤ e.userKey) :
    ∃ tail, inner = (c.collectOperands k inner).1 ++ tail ∧
      (∀ e ∈ (c.collectOperands k inner).1, e.userKey = k) ∧
      match (c.collectOperands k inner).2.1 with
      | .indirection => (c.collectOperands k inner).2.2 = tail ∧
          c.collectCharge k inner = ⟨(c.collectOperands k inner).1.length, 0⟩
      | .exhausted => (c.collectOperands k inner).2.2 = tail ∧
          c.collectCharge k inner = ⟨(c.collectOperands k inner).1.length, 0⟩ ∧
          ∀ e ∈ tail, e.userKey ≠ k
      | .boundary base => (∀ e ∈ (c.collectOperands k inner).2.2, e.userKey ≠ k) ∧
          ∃ x gone, tail = x :: (gone ++ (c.collectOperands k inner).2.2) ∧
            (∀ e ∈ x :: gone, e.userKey = k) ∧
            (c.collectCharge k inner).taken =
              (c.collectOperands k inner).1.length + (gone.length + 1) ∧
            ((c.collectCharge k inner).settled = 0 ∨
              (c.collectCharge k inner).settled = gone.length + 1 ∧ base = none ∧
                ∀ e ∈ x :: gone, e.isTombstone = true) := by
  induction inner with
  | nil => exact ⟨[], by simp [collectOperands, collectCharge]⟩
  | cons x inner ih =>
    rw [pairwise_cons] at hs
    have hk' : ∀ e ∈ inner, k ≤ e.userKey := fun e he => hk e (by simp [he])
    by_cases hx : x.userKey = k
    · obtain ⟨gone, hgone, hgk, hrest, hdr⟩ := drain_split hs.2 hk'
      have hexcused : x.isTombstone = true →
          (if c.evictTombstones && gone.all (·.isTombstone) then gone.length + 1 else 0) = 0 ∨
          (if c.evictTombstones && gone.all (·.isTombstone) then gone.length + 1 else 0) =
            gone.length + 1 ∧ True ∧ ∀ e ∈ x :: gone, e.isTombstone = true := by
        intro hto
        split
        · rename_i hall
          rw [Bool.and_eq_true, all_eq_true] at hall
          exact Or.inr ⟨rfl, trivial, by simpa [hto] using hall.2⟩
        · exact Or.inl rfl
      cases hty : x.valueType with
      | mergeOperand =>
        obtain ⟨tail, hsplit, hops, hend⟩ := ih hs.2 hk'
        refine ⟨tail, ?_, ?_, ?_⟩
        · simp only [collectOperands, hx, if_true, hty, cons_append]
          rw [← hsplit]
        · simpa [collectOperands, hx, hty] using hops
        · simp only [collectOperands, collectCharge, hx, if_true, hty]
          cases hl : (c.collectOperands k inner).2.1 with
          | indirection =>
            obtain ⟨hleft, hcharge⟩ := by simpa only [hl] using hend
            exact ⟨hleft, by rw [hcharge]; rfl⟩
          | exhausted =>
            obtain ⟨hleft, hcharge, hne⟩ := by simpa only [hl] using hend
            exact ⟨hleft, by rw [hcharge]; rfl, hne⟩
          | boundary base =>
            obtain ⟨hne, y, gone', htail, hyk, htaken, hset⟩ := by simpa only [hl] using hend
            refine ⟨hne, y, gone', htail, hyk, ?_, hset⟩
            rw [htaken, length_cons]
            omega
      | indirection => exact ⟨x :: inner, by simp [collectOperands, collectCharge, hx, hty]⟩
      | value =>
        refine ⟨x :: inner, by simp [collectOperands, hx, hty], by simp [collectOperands, hx, hty], ?_⟩
        simp only [collectOperands, collectCharge, hx, if_true, hty, hdr]
        exact ⟨hrest, x, gone, by rw [← hgone], by simpa [hx] using hgk, by simp, Or.inl trivial⟩
      | tombstone | weakTombstone =>
        refine ⟨x :: inner, by simp [collectOperands, hx, hty], by simp [collectOperands, hx, hty], ?_⟩
        simp only [collectOperands, collectCharge, hx, if_true, hty, hdr]
        exact ⟨hrest, x, gone, by rw [← hgone], by simpa [hx] using hgk, by simp,
          hexcused (by simp [InternalValue.isTombstone, hty, ValueType.isTombstone])⟩
    · have hlt : k < x.userKey := lt_of_le_of_ne (hk x (by simp)) (Ne.symm hx)
      refine ⟨x :: inner, by simp [collectOperands, hx], by simp [collectOperands, hx], ?_⟩
      simp only [collectOperands, collectCharge, hx, if_false, length_nil, true_and]
      intro e he
      rcases mem_cons.1 he with rfl | he
      · exact hx
      · exact ne_of_gt (lt_of_lt_of_le hlt (hs.1 e he))

theorem Alike.fold {m : MergeOperator K V} (hm : c.mergeOperator = some m) (hl : c.Lawful k)
    {e : InternalValue K V} {gone rest : List (InternalValue K V)}
    (hop : head.valueType = .mergeOperand) (hk : ∀ f ∈ e :: head :: gone, f.userKey = k)
    (hgone : ∀ f ∈ gone, f.isTombstone = true) (hrest : ∀ f ∈ rest, f.userKey ≠ k)
    (hs : e.seqno = head.seqno) (hval : e.value = m.merge k none [head.value])
    (hty : e.valueType = .mergeOperand ∨ e.valueType = .value) :
    c.Alike (e :: rest) (head :: (gone ++ rest)) := by
  have hek : e.userKey = head.userKey := by rw [hk e (by simp), hk head (by simp)]
  have hwalk : ∀ r : ReadView K V, r.mergeOperator = c.mergeOperator → ∀ acc,
      r.resolveFrom k acc [e] = r.resolveFrom k acc (head :: gone) := by
    intro r hr acc
    have hrm : r.mergeOperator = some m := hr.trans hm
    have hhides : r.hides e = r.hides head := by simp [ReadView.hides, hek, hs]
    by_cases hv : r.seqno ≤ head.seqno
    · rw [ReadView.resolveFrom_invisible (by rwa [hs]), ReadView.resolveFrom_invisible hv,
        ReadView.resolveFrom_nil, resolveFrom_tombstones hgone]
    · have hv' : head.seqno < r.seqno := Nat.lt_of_not_le hv
      cases hh : r.hides head with
      | true =>
        rw [ReadView.resolveFrom_hidden (hhides.trans hh), ReadView.resolveFrom_hidden hh]
      | false =>
        rw [ReadView.resolveFrom_operand hv' hh hop hrm, resolveFrom_tombstones hgone, hrm,
          settle_some m k _ (by simp)]
        rcases hty with hty | hty
        · have hfold := (hl m hm).1.interchangeable [head.value] acc
          rw [ReadView.resolveFrom_operand (by rwa [hs]) (hhides.trans hh) hty hrm,
            ReadView.resolveFrom_nil, hrm, settle_some m k _ (by simp), hval, hfold.merge_eq]
          rfl
        · rw [ReadView.resolveFrom_value (by rwa [hs]) (hhides.trans hh) hty, hval, hrm,
            settle_folded (hl m hm).2]
          rfl
  have h : c.Alike ([e] ++ rest) ((head :: gone) ++ rest) :=
    Alike.of_key (fun f hf => hk f (by simp_all)) (fun f hf => hk f (by simp_all)) hrest hwalk
  exact h

theorem collapse_accounts (hop : head.valueType = .mergeOperand)
    (hs : inner.Pairwise fun a b => a.userKey ≤ b.userKey)
    (hk : ∀ e ∈ inner, head.userKey ≤ e.userKey) :
    c.Accounts (c.collapse head [] inner) (c.collapseCharge head inner) head inner := by
  unfold collapse collapseCharge resolveWithOperator
  cases hm : c.mergeOperator with
  | none => exact emit_accounts (by simp) fun _ _ _ => Alike.refl _
  | some m =>
    obtain ⟨tail, hsplit, hops, hend⟩ := collect_shape (c := c) hs hk
    have huncovered : c.coveredByAppliedTombstone head.userKey head.seqno = false →
        c.uncoveredOperands [head] = [head.value] := fun h => by simp [uncoveredOperands, h]
    simp only [resolveMergeOperands, nil_append]
    cases hend' : (c.collectOperands head.userKey inner).2.1 with
    | indirection =>
      obtain ⟨hleft, hcharge⟩ := by simpa only [hend'] using hend
      rw [hcharge]
      refine emit_accounts (by simp) fun _ _ _ => ?_
      rw [hleft, ← hsplit]
      exact Alike.refl _
    | exhausted =>
      obtain ⟨hleft, hcharge, hne⟩ := by simpa only [hend'] using hend
      rw [hcharge]
      refine emit_accounts (by simp) fun hl hcov heq => ?_
      -- nothing else was taken: the head stood alone
      have hnil : (c.collectOperands head.userKey inner).1 = [] :=
        length_eq_zero_iff.1 (by simpa using heq.symm)
      rw [hnil, nil_append] at hsplit
      rw [hleft, hnil, huncovered hcov, hsplit]
      change c.Alike (_ :: tail) (head :: ([] ++ tail))
      exact Alike.fold hm hl hop (by simp) (by simp) hne rfl rfl (Or.inl rfl)
    | boundary base =>
      obtain ⟨hne, x, gone, htail, hxk, htaken, hset⟩ := by simpa only [hend'] using hend
      refine emit_accounts ?_ fun hl hcov heq => ?_
      · rcases hset with hset | ⟨hset, -⟩ <;> simp [hset, htaken]
      · obtain ⟨hsettled, rfl, htombs⟩ : (c.collectCharge head.userKey inner).settled = gone.length + 1 ∧
            base = none ∧ ∀ e ∈ x :: gone, e.isTombstone = true := by
          rcases hset with hset | hset
          · rw [hset, htaken] at heq
            simp at heq
          · exact hset
        have hnil : (c.collectOperands head.userKey inner).1 = [] := by
          refine length_eq_zero_iff.1 ?_
          rw [hsettled, htaken, length_nil] at heq
          omega
        rw [hnil, nil_append, htail] at hsplit
        rw [hnil, huncovered hcov, nil_append]
        conv_rhs => rw [hsplit]
        change c.Alike _ (head :: ((x :: gone) ++ (c.collectOperands head.userKey inner).2.2))
        refine Alike.fold hm hl hop ?_ htombs hne rfl rfl (Or.inr rfl)
        simpa using hxk

theorem turnLast_accounts (hs : inner.Pairwise fun a b => a.userKey ≤ b.userKey)
    (hk : ∀ e ∈ inner, head.userKey < e.userKey) :
    c.Accounts (c.turnLast head [] inner) (c.turnLastCharge head inner) head inner := by
  unfold turnLast turnLastCharge
  split_ifs with hto hop
  · refine silent_accounts le_rfl fun _ => ?_
    rw [Bool.and_eq_true] at hto
    change c.Alike inner ([head] ++ inner)
    exact Alike.tombstones (k := head.userKey) (by simp) (by simpa using hto.1)
      fun e he => ne_of_gt (hk e he)
  · rw [Bool.and_eq_true] at hop
    exact collapse_accounts (by simpa [InternalValue.isMergeOperand] using hop.1) hs
      fun e he => (hk e he).le
  · exact emit_accounts le_rfl fun _ _ _ => Alike.refl _

theorem turnShadowing_accounts (peeked : InternalValue K V)
    (hs : inner.Pairwise fun a b => a.userKey ≤ b.userKey)
    (hk : ∀ e ∈ inner, head.userKey ≤ e.userKey) :
    c.Accounts (c.turnShadowing head peeked [] inner) (c.turnShadowingCharge head peeked inner)
      head inner := by
  obtain ⟨gone, hgone, hgk, hrest, hdr⟩ := drain_split hs hk
  have hkeep : c.Accounts (c.emit head [] inner) ⟨0, 0⟩ head inner :=
    emit_accounts le_rfl fun _ _ _ => Alike.refl _
  unfold turnShadowing turnShadowingCharge
  simp only [hdr]
  split_ifs with h1 h1' h2 h3 h4 h5 h6 h6'
  · -- the tombstone and the tombstones under it
    refine silent_accounts (by simp) fun _ => ?_
    conv_rhs => rw [hgone]
    change c.Alike _ ((head :: gone) ++ drainKey head.userKey inner)
    refine Alike.tombstones (k := head.userKey) (by simpa using hgk) ?_ hrest
    simpa [InternalValue.isTombstone, h1.1, ValueType.isTombstone] using h1'
  · exact silent_accounts (by simp) (by simp)
  · exact silent_accounts (by simp) (by simp)
  · exact collapse_accounts (by simpa [InternalValue.isMergeOperand] using h4) hs hk
  · exact hkeep
  · -- the tombstones under the newest version below the watermark
    refine emit_accounts (by simp) fun _ _ _ => Alike.cons head ?_
    conv_rhs => rw [hgone]
    rw [Bool.and_eq_true, all_eq_true] at h6'
    exact Alike.tombstones hgk h6'.2 hrest
  · refine emit_accounts (by simp) fun _ _ heq => ?_
    have hnil : gone = [] := length_eq_zero_iff.1 (by simpa using heq.symm)
    rw [hnil, nil_append] at hgone
    rw [nil_append, ← hgone]
    exact Alike.refl _
  · exact hkeep
  · exact hkeep

theorem turn_accounts (hs : (head :: inner).Pairwise fun a b => a.userKey ≤ b.userKey) :
    c.Accounts (c.turn head [] inner) (c.turnCharge head inner) head inner := by
  rw [pairwise_cons] at hs
  cases inner with
  | nil => exact turnLast_accounts hs.2 (by simp)
  | cons x xs =>
    simp only [turn, turnCharge]
    split_ifs with hx
    · exact turnShadowing_accounts x hs.2 hs.1
    · refine turnLast_accounts hs.2 fun e he => ?_
      have hlt : head.userKey < x.userKey := lt_of_le_of_ne (hs.1 x (by simp)) (Ne.symm hx)
      rcases mem_cons.1 he with rfl | he
      · exact hlt
      · exact lt_of_lt_of_le hlt ((pairwise_cons.1 hs.2).1 e he)

/-- Pending entries are operands of one key, put back in front of the blob handle they met. -/
structure PutBack (pending inner : List (InternalValue K V)) : Prop where
  operands : ∀ e ∈ pending, e.valueType = .mergeOperand
  handle : pending ≠ [] → ∃ x xs, inner = x :: xs ∧ x.valueType = .indirection ∧
    ∀ e ∈ pending, x.userKey = e.userKey

omit [LinearOrder K] in
theorem PutBack.nil (inner : List (InternalValue K V)) : PutBack [] inner :=
  ⟨by simp, fun h => absurd rfl h⟩

theorem collectOperands_putBack
    (h : (c.collectOperands k inner).2.1 = .indirection) :
    (∀ e ∈ (c.collectOperands k inner).1, e.valueType = .mergeOperand ∧ e.userKey = k) ∧
      ∃ x xs, (c.collectOperands k inner).2.2 = x :: xs ∧ x.valueType = .indirection ∧
        x.userKey = k := by
  induction inner with
  | nil => cases h
  | cons x inner ih =>
    by_cases hx : x.userKey = k
    · cases hty : x.valueType with
      | mergeOperand =>
        simp only [collectOperands, hx, if_true, hty] at h ⊢
        obtain ⟨hops, hhandle⟩ := ih h
        exact ⟨by simpa [hty, hx] using hops, hhandle⟩
      | indirection => simp [collectOperands, hx, hty]
      | _ => simp [collectOperands, hx, hty] at h
    · simp [collectOperands, hx] at h

theorem collapse_putBack (head : InternalValue K V) (inner : List (InternalValue K V)) :
    PutBack (c.collapse head [] inner).pending (c.collapse head [] inner).inner := by
  unfold collapse resolveWithOperator
  cases c.mergeOperator with
  | none => exact PutBack.nil _
  | some m =>
    simp only [resolveMergeOperands, emit_pending, emit_inner, nil_append]
    cases hend : (c.collectOperands head.userKey inner).2.1 with
    | exhausted => exact PutBack.nil _
    | boundary base => exact PutBack.nil _
    | indirection =>
      obtain ⟨hops, x, xs, hx, hty, hkx⟩ := collectOperands_putBack hend
      exact ⟨fun e he => (hops e he).1, fun _ => ⟨x, xs, hx, hty, fun e he => by
        rw [hkx, (hops e he).2]⟩⟩

theorem turn_putBack (head : InternalValue K V) (inner : List (InternalValue K V)) :
    PutBack (c.turn head [] inner).pending (c.turn head [] inner).inner := by
  have hlast : PutBack (c.turnLast head [] inner).pending (c.turnLast head [] inner).inner := by
    unfold turnLast
    split_ifs
    · exact PutBack.nil _
    · exact collapse_putBack head inner
    · exact PutBack.nil _
  cases inner with
  | nil => exact hlast
  | cons x xs =>
    simp only [turn]
    split
    · unfold turnShadowing
      split_ifs
      · exact PutBack.nil _
      · exact PutBack.nil _
      · exact collapse_putBack head (x :: xs)
      all_goals exact PutBack.nil _
    · exact hlast

theorem turnCharge_pending {x : InternalValue K V} {xs : List (InternalValue K V)}
    (hop : head.valueType = .mergeOperand) (hx : x.valueType = .indirection)
    (hk : x.userKey = head.userKey) : c.turnCharge head (x :: xs) = ⟨0, 0⟩ := by
  have hcollapse : c.collapseCharge head (x :: xs) = ⟨0, 0⟩ := by
    unfold collapseCharge
    cases c.mergeOperator with
    | none => rfl
    | some m => simp [collectCharge, hk, hx]
  have hop' : head.isMergeOperand = true := by simp [InternalValue.isMergeOperand, hop]
  simp [turnCharge, turnShadowingCharge, hk, hop, hop', hcollapse]

end Turns

section Run

variable {c : StreamConfig K V}

theorem settleVersions_of_le {n balance : ℕ} (h : n ≤ balance) :
    settleVersions n balance = some (balance - n) := if_pos h

theorem balanceFuel_succ {fuel balance : ℕ} {pending inner : List (InternalValue K V)}
    {t : Turn K V} {charge : Charge} (ht : c.nextTurn pending inner = some t)
    (hc : c.nextCharge pending inner = charge)
    (h : charge.settled + t.out.toList.length ≤ balance + charge.taken) :
    c.balanceFuel (fuel + 1) balance pending inner =
      c.balanceFuel fuel (balance + charge.taken - charge.settled - t.out.toList.length)
        t.pending t.inner := by
  simp only [balanceFuel, ht, hc]
  rw [settleVersions_of_le (by omega), Option.bind_eq_bind, Option.bind_some,
    settleVersions_of_le (by omega), Option.bind_some]

theorem balance_accounts (fuel balance : ℕ)
    (pending inner : List (InternalValue K V)) (hfuel : pending.length + inner.length ≤ fuel)
    (hp : PutBack pending inner)
    (hs : (pending ++ inner).Pairwise fun a b => a.userKey ≤ b.userKey)
    (hb : pending.length ≤ balance) :
    ∃ final, c.balanceFuel fuel balance pending inner = some final ∧
      balance ≤ final + pending.length ∧
      ((∀ k, c.Lawful k) → final + pending.length = balance →
        c.Alike (c.run pending inner) (pending ++ inner)) := by
  induction fuel generalizing balance pending inner with
  | zero =>
    have hpn : pending = [] := length_eq_zero_iff.1 (by omega)
    have hin : inner = [] := length_eq_zero_iff.1 (by omega)
    subst hpn hin
    exact ⟨balance, rfl, by simp, fun _ _ => Alike.refl _⟩
  | succ fuel ih =>
    cases pending with
    | cons head pending =>
      obtain ⟨x, xs, rfl, hx, hkeys⟩ := hp.handle (by simp)
      have hop := hp.operands head (by simp)
      have hturn : c.turn head pending (x :: xs) = c.emit head pending (x :: xs) :=
        turn_pending hop hx (hkeys head (by simp))
      have hcharge : c.nextCharge (head :: pending) (x :: xs) = ⟨0, 0⟩ :=
        turnCharge_pending hop hx (hkeys head (by simp))
      have hrest : PutBack pending (x :: xs) :=
        ⟨fun e he => hp.operands e (by simp [he]),
          fun _ => ⟨x, xs, rfl, hx, fun e he => hkeys e (by simp [he])⟩⟩
      have hnext : c.nextTurn (head :: pending) (x :: xs) = some (c.emit head pending (x :: xs)) :=
        congrArg some hturn
      simp only [length_cons] at hfuel hb ⊢
      have hout : (c.emit head pending (x :: xs)).out.toList.length ≤ 1 := by
        rcases emit_out_cases (c := c) head pending (x :: xs) with h | ⟨h, -⟩ <;> simp [h]
      obtain ⟨final, hfinal, hle, hneutral⟩ := ih
        (balance + 0 - 0 - (c.emit head pending (x :: xs)).out.toList.length) pending (x :: xs)
        (by simp only [length_cons]; omega) hrest (pairwise_cons.1 hs).2 (by omega)
      refine ⟨final, ?_, by omega, fun hl heq => ?_⟩
      · rw [balanceFuel_succ hnext hcharge (by simp only; omega)]
        exact hfinal
      · rcases emit_out_cases (c := c) head pending (x :: xs) with h | ⟨h, -⟩
        · rw [h, length_nil] at hle
          omega
        · rw [h, length_singleton] at hneutral
          rw [run_pending, hturn, h]
          exact Alike.cons head (hneutral hl (by omega))
    | nil =>
      cases inner with
      | nil => exact ⟨balance, rfl, by simp, fun _ _ => Alike.refl _⟩
      | cons head inner =>
        have hacc := turn_accounts (c := c) hs
        have hcover := hacc.covers
        have hsub := (turn_passes c head [] inner).sublist
        have hlen := hsub.length_le
        simp only [length_append, length_nil, length_cons] at hlen hfuel
        obtain ⟨final, hfinal, hle, hneutral⟩ := ih
          (balance + ((c.turnCharge head inner).taken + 1) - (c.turnCharge head inner).settled -
            (c.turn head [] inner).out.toList.length) (c.turn head [] inner).pending
          (c.turn head [] inner).inner (by omega) (turn_putBack head inner)
          ((pairwise_cons.1 hs).2.sublist hsub) (by omega)
        refine ⟨final, ?_, by simp only [length_nil]; omega, fun hl heq => ?_⟩
        · rw [balanceFuel_succ rfl rfl (by simp only [nextCharge]; omega)]
          exact hfinal
        · simp only [length_nil] at heq
          rw [run_input]
          exact hacc.neutral (hl head.userKey) (by omega) _ (hneutral hl (by omega))

/-- The balance of a whole run never wraps around. With a lawful operator, a run that ends balanced
changes the answer of no reader, and no run changes it at or above the watermark. -/
theorem gcBalance_sound {input : List (InternalValue K V)}
    (hs : input.Pairwise fun a b => a.le b = true) :
    ∃ balance, c.gcBalance input = some balance ∧ ((∀ k, c.Lawful k) →
      (balance = 0 → ∀ r : ReadView K V, r.mergeOperator = c.mergeOperator →
        ∀ k, r.resolve k (c.compactionStream input) = r.resolve k input) ∧
      ∀ r : ReadView K V, r.mergeOperator = c.mergeOperator → r.rangeTombstones = c.rtApply →
        ∀ k, r.resolve k (c.compactionStream input) ≠ r.resolve k input →
          r.seqno < c.gcSeqnoThreshold) := by
  have hkeys : input.Pairwise fun a b => a.userKey ≤ b.userKey :=
    hs.imp fun hab => InternalValue.le_key.1 hab
  obtain ⟨balance, hbal, -, hneutral⟩ := balance_accounts input.length 0 [] input
    (by simp) (PutBack.nil _) hkeys le_rfl
  refine ⟨balance, hbal, fun hl => ⟨fun hz r hr k => ?_, fun r hr hrt k hne => ?_⟩⟩
  · exact hneutral hl (by simpa using hz) r hr k []
  · by_contra hw
    have htail : c.KeyTail k [] (input.filter fun e => e.userKey = k) :=
      ⟨fun e he => by simp only [append_nil, mem_filter, decide_eq_true_eq] at he; exact he.2,
        by simpa using newestFirst_filter_le hs k, fun _ _ => rfl, fun h => absurd rfl h⟩
    have hwalk := run_keeps ⟨hrt, hr, Nat.le_of_not_lt hw⟩ (hl k) [] _ htail
      (fun h => absurd rfl h) []
    refine hne ?_
    unfold ReadView.resolve
    rw [compactionStream_filter k hkeys, compactionStream]
    simpa using hwalk

end Run

section Examples

/-- Adds its operands up, and one for every time it is applied. -/
def countPasses : MergeOperator ℕ ℕ where
  merge _ base ops := base.getD 0 + ops.sum + 1

/-- A lone operand below the watermark is replaced by its own fold without a trace in the
balance. -/
theorem loneOperand_rewritten :
    ([⟨0, 5, .mergeOperand, 1⟩] : List (InternalValue ℕ ℕ)).Pairwise (fun a b => a.le b = true) ∧
    (⟨10, false, some countPasses, []⟩ : StreamConfig ℕ ℕ).gcBalance [⟨0, 5, .mergeOperand, 1⟩] =
      some 0 ∧
    (⟨11, [], id, some countPasses⟩ : ReadView ℕ ℕ).resolve 0
      ((⟨10, false, some countPasses, []⟩ : StreamConfig ℕ ℕ).compactionStream
        [⟨0, 5, .mergeOperand, 1⟩]) = some 3 ∧
    (⟨11, [], id, some countPasses⟩ : ReadView ℕ ℕ).resolve 0 [⟨0, 5, .mergeOperand, 1⟩] =
      some 2 := by decide

def excusedTombstone : List (InternalValue ℕ (List ℕ)) :=
  [⟨0, 9, .value, [1]⟩, ⟨0, 4, .value, [2]⟩, ⟨0, 3, .tombstone, []⟩, ⟨1, 2, .mergeOperand, [3]⟩]

theorem excusedTombstone_unseen :
    (⟨5, true, some concatOperator, []⟩ : StreamConfig ℕ (List ℕ)).gcBalance excusedTombstone =
      some 0 ∧
    ∀ r : ReadView ℕ (List ℕ), r.mergeOperator = some concatOperator →
      ∀ k, r.resolve k ((⟨5, true, some concatOperator, []⟩ :
        StreamConfig ℕ (List ℕ)).compactionStream excusedTombstone) =
          r.resolve k excusedTombstone := by
  have hzero : (⟨5, true, some concatOperator, []⟩ : StreamConfig ℕ (List ℕ)).gcBalance
      excusedTombstone = some 0 := by decide
  obtain ⟨balance, hbal, h⟩ := @gcBalance_sound ℕ (List ℕ) _
    ⟨5, true, some concatOperator, []⟩ excusedTombstone (by decide)
  rw [hzero] at hbal
  have hl : ∀ k, (⟨5, true, some concatOperator, []⟩ : StreamConfig ℕ (List ℕ)).Lawful k :=
    fun k m hm => by cases hm; exact concatOperator_folds k
  exact ⟨hzero, (h hl).1 (Option.some.inj hbal).symm⟩

end Examples

end LsmTree.StreamConfig
