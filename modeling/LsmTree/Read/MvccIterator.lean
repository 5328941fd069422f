import LsmTree.Read.MvccStream
import LsmTree.Theory.DoubleEnded

/-! `MvccStream` as a double-ended iterator over any sorted stream. -/
namespace LsmTree

open DoubleEnded List

/-- One call of the merge operator; the operands stand oldest first. -/
structure MergeCall (K V : Type*) where
  userKey : K
  baseValue : Option V
  operands : List (InternalValue K V)
  deriving DecidableEq, Repr

def MergeCall.result {K V : Type*} (c : MergeCall K V) (op : MergeOperator K V) : V :=
  op.merge c.userKey c.baseValue (c.operands.map (·.value))

inductive MergeEnd (V : Type*) where
  | exhausted
  | deleted
  | base (value : V)
  | indirection
  deriving DecidableEq, Repr

/-- The call for operands collected newest first; a handle is no base and there is none. -/
def MergeEnd.call {K V : Type*} (k : K) (operands : List (InternalValue K V)) :
    MergeEnd V → Option (MergeCall K V)
  | .indirection => none
  | .base value => some ⟨k, some value, operands.reverse⟩
  | .exhausted | .deleted => some ⟨k, none, operands.reverse⟩

/-- Each range tombstone comes with the cutoff of its source. -/
structure MvccRules (K V : Type*) where
  mergeOperator : Option (MergeOperator K V)
  rangeTombstones : List (RangeTombstone K × ℕ)

structure MvccIterator (I K V : Type*) where
  rules : MvccRules K V
  inner : Peekable I (InternalValue K V)

variable {I K V : Type*} [LinearOrder K]

namespace MvccRules

variable (m : MvccRules K V)

/-- `is_rt_suppressed` -/
def suppresses (e : InternalValue K V) : Bool :=
  m.rangeTombstones.any fun rt => rt.1.shouldSuppress e.userKey e.seqno rt.2

/-- Whether the walk stops at an entry; it goes on over operands only. -/
def stopAt (e : InternalValue K V) : Option (MergeEnd V) :=
  if m.suppresses e then some .deleted
  else match e.valueType with
    | .mergeOperand => none
    | .value => some (.base e.value)
    | .indirection => some .indirection
    | .tombstone | .weakTombstone => some .deleted

/-- The operands from the newest entry on, and what ends them. -/
def walk : List (InternalValue K V) → List (InternalValue K V) × MergeEnd V
  | [] => ([], .exhausted)
  | e :: es =>
    match m.stopAt e with
    | some stop => ([], stop)
    | none => (e :: (walk es).1, (walk es).2)

def settle (op : MergeOperator K V) (newest : InternalValue K V)
    (r : List (InternalValue K V) × MergeEnd V) : InternalValue K V :=
  match r.2.call newest.userKey r.1 with
  | some c => ⟨newest.userKey, newest.seqno, .value, c.result op⟩
  | none => newest

/-- `resolve_merge_buffered`: `older` was buffered oldest first, `newest` came last. -/
def resolveMergeBuffered (op : MergeOperator K V) (older : List (InternalValue K V))
    (newest : InternalValue K V) : InternalValue K V :=
  settle op newest (m.walk (older ++ [newest]).reverse)

/-- What `next_back` returns once it has met the newest version of a key. -/
def finishBack (older : List (InternalValue K V)) (newest : InternalValue K V) :
    InternalValue K V :=
  match m.mergeOperator with
  | some op =>
    if newest.isMergeOperand && !m.suppresses newest then m.resolveMergeBuffered op older newest
    else newest
  | none => newest

section Loops

variable [Iter I (InternalValue K V)]

/-- The loop of `resolve_merge_forward`. -/
def collect (k : K) : ℕ → Peekable I (InternalValue K V) →
    (List (InternalValue K V) × MergeEnd V) × Peekable I (InternalValue K V)
  | 0, inner => (([], .exhausted), inner)
  | fuel + 1, inner =>
    match inner.nextIf fun e => e.userKey = k with
    | (none, inner) => (([], .exhausted), inner)
    | (some next, inner) =>
      match m.stopAt next with
      | some stop => (([], stop), inner)
      | none =>
        let r := collect k fuel inner
        ((next :: r.1.1, r.1.2), r.2)

def drainKeyMin (k : K) : ℕ → Peekable I (InternalValue K V) → Peekable I (InternalValue K V)
  | 0, inner => inner
  | fuel + 1, inner =>
    match inner.nextIf fun e => e.userKey = k with
    | (none, inner) => inner
    | (some _, inner) => drainKeyMin k fuel inner

def resolveMergeForward (op : MergeOperator K V) (head : InternalValue K V)
    (inner : Peekable I (InternalValue K V)) :
    InternalValue K V × Peekable I (InternalValue K V) :=
  let r := m.collect head.userKey (Iter.bound inner + 1) inner
  let inner := match r.1.2 with
    | .exhausted => r.2
    | _ => drainKeyMin head.userKey (Iter.bound r.2 + 1) r.2
  (settle op head (head :: r.1.1, r.1.2), inner)

def nextFrom (inner : Peekable I (InternalValue K V)) :
    Option (InternalValue K V) × Peekable I (InternalValue K V) :=
  match inner.next with
  | (none, inner) => (none, inner)
  | (some head, inner) =>
    let drained := drainKeyMin head.userKey (Iter.bound inner + 1) inner
    match m.mergeOperator with
    | some op =>
      if head.isMergeOperand && !m.suppresses head then
        let r := m.resolveMergeForward op head inner
        (some r.1, r.2)
      else (some head, drained)
    | none => (some head, drained)

/-- The loop of `next_back`: the newest version of the last key, and the older ones, oldest first,
if there is a merge operator. -/
def gatherBack : ℕ → List (InternalValue K V) → Peekable I (InternalValue K V) →
    Option (List (InternalValue K V) × InternalValue K V) × Peekable I (InternalValue K V)
  | 0, _, inner => (none, inner)
  | fuel + 1, buf, inner =>
    match inner.nextBack with
    | (none, inner) => (none, inner)
    | (some tail, inner) =>
      match inner.peekBack with
      | (none, inner) => (some (buf, tail), inner)
      | (some prev, inner) =>
        if prev.userKey ≠ tail.userKey then (some (buf, tail), inner)
        else gatherBack fuel (if m.mergeOperator.isSome then buf ++ [tail] else buf) inner

def nextBackFrom (inner : Peekable I (InternalValue K V)) :
    Option (InternalValue K V) × Peekable I (InternalValue K V) :=
  let r := m.gatherBack (Iter.bound inner + 1) [] inner
  (r.1.map fun g => m.finishBack g.1 g.2, r.2)

end Loops

end MvccRules

namespace MvccIterator

variable [Iter I (InternalValue K V)]

def new (rules : MvccRules K V) (iter : I) : MvccIterator I K V := ⟨rules, .new iter⟩

instance : Iter (MvccIterator I K V) (InternalValue K V) where
  next m := ((m.rules.nextFrom m.inner).1, { m with inner := (m.rules.nextFrom m.inner).2 })
  nextBack m :=
    ((m.rules.nextBackFrom m.inner).1, { m with inner := (m.rules.nextBackFrom m.inner).2 })
  bound m := Iter.bound m.inner

end MvccIterator

namespace MvccRules

section Spec

variable (m : MvccRules K V)

/-- The operands over the newest base that no range tombstone deletes, oldest first. -/
def liveOperands (es : List (InternalValue K V)) : List (InternalValue K V) :=
  ((es.takeWhile (·.isMergeOperand)).filter (!m.suppresses ·)).reverse

/-- The newest entry that is not an operand, unless a range tombstone deletes it. -/
def liveBase (es : List (InternalValue K V)) : Option (InternalValue K V) :=
  (es.dropWhile (·.isMergeOperand)).head?.filter (!m.suppresses ·)

/-- What the versions of a key, newest first, should give. -/
def keyItem : List (InternalValue K V) → Option (InternalValue K V)
  | [] => none
  | e :: es =>
    match m.mergeOperator with
    | none => some e
    | some op =>
      let merged base := ⟨e.userKey, e.seqno, .value,
        op.merge e.userKey base ((m.liveOperands (e :: es)).map (·.value))⟩
      if e.isMergeOperand && !m.suppresses e then
        match m.liveBase (e :: es) with
        | none => some (merged none)
        | some b =>
          match b.valueType with
          | .indirection => some e
          | .value => some (merged (some b.value))
          | _ => some (merged none)
      else some e

end Spec

variable {m : MvccRules K V} {e : InternalValue K V} {es : List (InternalValue K V)}

theorem suppresses_older {f : InternalValue K V} (h : m.suppresses e = true)
    (hk : f.userKey = e.userKey) (hs : f.seqno ≤ e.seqno) : m.suppresses f = true := by
  simp only [suppresses, any_eq_true, RangeTombstone.shouldSuppress_iff] at h ⊢
  obtain ⟨rt, hrt, hv, hc, he⟩ := h
  exact ⟨rt, hrt, hv, by rwa [hk], by omega⟩

theorem suppresses_suffix (hk : ∀ a ∈ es, ∀ b ∈ es, a.userKey = b.userKey)
    (hs : es.Pairwise fun a b => a.le b = true) :
    es.Pairwise fun a b => m.suppresses a = true → m.suppresses b = true := by
  refine hs.imp_of_mem fun {a b} ha hb hle h => ?_
  have hkey := hk a ha b hb
  refine suppresses_older h hkey.symm ?_
  rcases InternalValue.le_iff.1 hle with hlt | hle
  · exact absurd hkey hlt.ne
  · exact hle.2

theorem stopAt_eq_none_iff :
    m.stopAt e = none ↔ e.isMergeOperand = true ∧ m.suppresses e = false := by
  unfold stopAt InternalValue.isMergeOperand
  by_cases hs : m.suppresses e = true
  · simp [hs]
  · cases e.valueType <;> simp [hs]

theorem walk_fst (hsuffix : es.Pairwise fun a b => m.suppresses a = true → m.suppresses b = true) :
    (m.walk es).1.reverse = m.liveOperands es := by
  rw [liveOperands]
  congr 1
  induction es with
  | nil => rfl
  | cons e es ih =>
    obtain ⟨he, hes⟩ := pairwise_cons.1 hsuffix
    rw [walk]
    by_cases hs : m.suppresses e = true
    · have hnone : (es.takeWhile (·.isMergeOperand)).filter (!m.suppresses ·) = [] := by
        refine filter_eq_nil_iff.2 fun f hf => ?_
        simp [he f ((List.takeWhile_prefix _).subset hf) hs]
      by_cases hop : e.isMergeOperand = true
      · simp [stopAt, hs, hop, hnone]
      · simp [stopAt, hs, hop]
    · by_cases hop : e.isMergeOperand = true
      · rw [stopAt_eq_none_iff.2 ⟨hop, by simpa using hs⟩]
        simp [hop, hs, ih hes]
      · cases hstop : m.stopAt e with
        | none => exact absurd (stopAt_eq_none_iff.1 hstop).1 hop
        | some stop => simp [hop]

/-- How the walk ends, told from the base alone. -/
def EndsAt : Option (InternalValue K V) → MergeEnd V → Prop
  | none, stop => stop = .exhausted ∨ stop = .deleted
  | some b, stop =>
    match b.valueType with
    | .indirection => stop = .indirection
    | .value => stop = .base b.value
    | _ => stop = .deleted

theorem walk_snd (hsuffix : es.Pairwise fun a b => m.suppresses a = true → m.suppresses b = true) :
    EndsAt (m.liveBase es) (m.walk es).2 := by
  induction es with
  | nil => exact Or.inl rfl
  | cons e es ih =>
    obtain ⟨he, hes⟩ := pairwise_cons.1 hsuffix
    rw [walk]
    by_cases hs : m.suppresses e = true
    · have hnone : m.liveBase (e :: es) = none := by
        refine Option.eq_none_iff_forall_not_mem.2 fun b hb => ?_
        obtain ⟨hb, hlive⟩ := Option.mem_filter_iff.1 hb
        have hmem := (dropWhile_suffix _).subset (mem_of_mem_head? hb)
        rcases mem_cons.1 hmem with rfl | hmem
        · simp [hs] at hlive
        · simp [he b hmem hs] at hlive
      rw [hnone, stopAt, if_pos hs]
      exact Or.inr rfl
    · by_cases hop : e.isMergeOperand = true
      · rw [stopAt_eq_none_iff.2 ⟨hop, by simpa using hs⟩]
        have hbase : m.liveBase (e :: es) = m.liveBase es := by
          simp only [liveBase, dropWhile_cons_of_pos hop]
        rw [hbase]
        exact ih hes
      · have hbase : m.liveBase (e :: es) = some e := by
          simp [liveBase, hop, hs]
        rw [hbase, stopAt, if_neg hs]
        unfold InternalValue.isMergeOperand at hop
        cases htype : e.valueType <;> simp_all [EndsAt]

theorem keyItem_of_merge {op : MergeOperator K V} (hm : m.mergeOperator = some op)
    (he : (e.isMergeOperand && !m.suppresses e) = true)
    (hsuffix : (e :: es).Pairwise fun a b => m.suppresses a = true → m.suppresses b = true) :
    m.keyItem (e :: es) = some (settle op e (m.walk (e :: es))) := by
  have hops := walk_fst hsuffix
  have hend := walk_snd hsuffix
  simp only [keyItem, hm, he, if_true, settle]
  cases hbase : m.liveBase (e :: es) with
  | none =>
    rw [hbase] at hend
    rcases hend with hend | hend <;>
      simp only [hend, MergeEnd.call, MergeCall.result, hops]
  | some b =>
    rw [hbase] at hend
    simp only [EndsAt] at hend
    cases htype : b.valueType <;> simp only [htype] at hend ⊢ <;>
      simp only [hend, MergeEnd.call, MergeCall.result, hops]

theorem keyItem_of_not_merge (h : ∀ op, m.mergeOperator = some op →
    (e.isMergeOperand && !m.suppresses e) = false) : m.keyItem (e :: es) = some e := by
  cases hm : m.mergeOperator with
  | none => simp only [keyItem, hm]
  | some op => simp only [keyItem, hm, h op hm, Bool.false_eq_true, if_false]

theorem finishBack_eq {buf : List (InternalValue K V)} (hsuffix : (e :: es).Pairwise fun a b =>
    m.suppresses a = true → m.suppresses b = true) (hbuf : m.mergeOperator.isSome = true →
      buf = es.reverse) : some (m.finishBack buf e) = m.keyItem (e :: es) := by
  unfold finishBack
  cases hm : m.mergeOperator with
  | none => exact (keyItem_of_not_merge (by simp [hm])).symm
  | some op =>
    dsimp only
    split
    case isTrue he =>
      rw [keyItem_of_merge hm he hsuffix, resolveMergeBuffered, hbuf (by simp [hm])]
      simp
    case isFalse he =>
      refine (keyItem_of_not_merge fun op' _ => ?_).symm
      simpa using he

section Loops

variable [Iter I (InternalValue K V)] {R : I → List (InternalValue K V) → Prop}
  {inner : Peekable I (InternalValue K V)} {k : K} {run rest : List (InternalValue K V)} {fuel : ℕ}

theorem drainKeyMin_spec (hR : Yields R) (h : inner.Holds R (run ++ rest))
    (hrun : ∀ e ∈ run, e.userKey = k) (hrest : ∀ e ∈ rest.head?, e.userKey ≠ k)
    (hfuel : run.length < fuel) : (drainKeyMin k fuel inner).Holds R rest := by
  induction run generalizing fuel inner with
  | nil =>
    obtain ⟨fuel, rfl⟩ := Nat.exists_eq_add_one_of_ne_zero (Nat.ne_zero_of_lt hfuel)
    obtain ⟨inner', hnext, hinner'⟩ := Peekable.nextIf_none (fun e => decide (e.userKey = k))
      hR.front h fun e he => decide_eq_false (hrest e he)
    rw [drainKeyMin, hnext]
    exact hinner'
  | cons e run ih =>
    obtain ⟨fuel, rfl⟩ := Nat.exists_eq_add_one_of_ne_zero (Nat.ne_zero_of_lt hfuel)
    obtain ⟨he, hrun⟩ := forall_mem_cons.1 hrun
    obtain ⟨inner', hnext, hinner'⟩ := Peekable.nextIf_pos (fun e => decide (e.userKey = k)) hR.front h (decide_eq_true he)
    rw [drainKeyMin, hnext]
    exact ih hinner' hrun (Nat.lt_of_succ_lt_succ hfuel)

theorem collect_spec (hR : Yields R) (h : inner.Holds R (run ++ rest))
    (hrun : ∀ e ∈ run, e.userKey = k) (hrest : ∀ e ∈ rest.head?, e.userKey ≠ k)
    (hfuel : run.length < fuel) :
    (m.collect k fuel inner).1 = m.walk run ∧
      ∃ left, (m.collect k fuel inner).2.Holds R (left ++ rest) ∧ (∀ e ∈ left, e.userKey = k) ∧
        ((m.walk run).2 = .exhausted → left = []) := by
  induction run generalizing fuel inner with
  | nil =>
    obtain ⟨fuel, rfl⟩ := Nat.exists_eq_add_one_of_ne_zero (Nat.ne_zero_of_lt hfuel)
    obtain ⟨inner', hnext, hinner'⟩ := Peekable.nextIf_none (fun e => decide (e.userKey = k))
      hR.front h fun e he => decide_eq_false (hrest e he)
    rw [collect, hnext]
    exact ⟨rfl, [], hinner', by simp, fun _ => rfl⟩
  | cons e run ih =>
    obtain ⟨fuel, rfl⟩ := Nat.exists_eq_add_one_of_ne_zero (Nat.ne_zero_of_lt hfuel)
    obtain ⟨he, hrun⟩ := forall_mem_cons.1 hrun
    obtain ⟨inner', hnext, hinner'⟩ := Peekable.nextIf_pos (fun e => decide (e.userKey = k)) hR.front h (decide_eq_true he)
    rw [collect, hnext, walk]
    dsimp only
    cases hstop : m.stopAt e with
    | some stop =>
      refine ⟨rfl, run, hinner', hrun, fun hend => ?_⟩
      -- no entry ends the walk the way the end of the run does
      unfold stopAt at hstop
      dsimp only at hend
      subst hend
      split at hstop
      · cases hstop
      · split at hstop <;> cases hstop
    | none =>
      obtain ⟨hwalk, left, hleft⟩ := ih hinner' hrun (Nat.lt_of_succ_lt_succ hfuel)
      refine ⟨?_, left, hleft⟩
      simp only [hwalk]

theorem resolveMergeForward_spec (hR : Yields R) (h : inner.Holds R (run ++ rest))
    (hrun : ∀ f ∈ run, f.userKey = e.userKey) (hrest : ∀ f ∈ rest.head?, f.userKey ≠ e.userKey)
    (op : MergeOperator K V) :
    (m.resolveMergeForward op e inner).1 = settle op e (e :: (m.walk run).1, (m.walk run).2) ∧
      (m.resolveMergeForward op e inner).2.Holds R rest := by
  have hbound := (Peekable.yields hR).bound h
  rw [length_append] at hbound
  obtain ⟨hwalk, left, hleft, hkey, hend⟩ :=
    @collect_spec I K V _ m _ R inner e.userKey run rest (Iter.bound inner + 1) hR h hrun hrest
      (by omega)
  refine ⟨by simp only [resolveMergeForward, hwalk], ?_⟩
  have hbound' := (Peekable.yields hR).bound hleft
  rw [length_append] at hbound'
  have hdrain := @drainKeyMin_spec I K V _ _ R _ _ _ _ (Iter.bound
    (m.collect e.userKey (Iter.bound inner + 1) inner).2 + 1) hR hleft hkey hrest (by omega)
  simp only [resolveMergeForward, hwalk]
  cases hstop : (m.walk run).2 with
  | exhausted => simpa [hend hstop] using hleft
  | deleted => exact hdrain
  | base value => exact hdrain
  | indirection => exact hdrain

theorem nextFrom_spec (hR : Yields R) (h : inner.Holds R (e :: run ++ rest))
    (hrun : ∀ f ∈ run, f.userKey = e.userKey) (hrest : ∀ f ∈ rest.head?, f.userKey ≠ e.userKey)
    (hsuffix : (e :: run).Pairwise fun a b => m.suppresses a = true → m.suppresses b = true) :
    (m.nextFrom inner).1 = m.keyItem (e :: run) ∧ (m.nextFrom inner).2.Holds R rest := by
  obtain ⟨hhead, hinner, -⟩ := Peekable.next_spec hR.front h
  have hnext : inner.next = (some e, inner.next.2) := Prod.ext hhead rfl
  have hbound := (Peekable.yields hR).bound hinner
  rw [cons_append, tail_cons, length_append] at hbound
  have hdrain := @drainKeyMin_spec I K V _ _ R _ _ _ _ (Iter.bound inner.next.2 + 1) hR hinner hrun
    hrest (by omega)
  unfold nextFrom
  rw [hnext]
  cases hm : m.mergeOperator with
  | none => exact ⟨(keyItem_of_not_merge (by simp [hm])).symm, hdrain⟩
  | some op =>
    by_cases he : (e.isMergeOperand && !m.suppresses e) = true
    · obtain ⟨hitem, hleft⟩ := resolveMergeForward_spec hR hinner hrun hrest op
      simp only [he, if_true]
      refine ⟨?_, hleft⟩
      rw [hitem, keyItem_of_merge hm he hsuffix, walk, stopAt_eq_none_iff.2 (by simpa using he)]
    · simp only [he]
      exact ⟨(keyItem_of_not_merge fun _ _ => by simpa using he).symm, hdrain⟩

theorem gatherBack_spec (hR : Yields R) (h : inner.Holds R (rest ++ e :: run))
    (hrun : ∀ f ∈ run, f.userKey = e.userKey) (hrest : ∀ f ∈ rest.getLast?, f.userKey ≠ e.userKey)
    (hfuel : run.length < fuel) (buf : List (InternalValue K V)) :
    ∃ buf', (m.gatherBack fuel buf inner).1 = some (buf', e) ∧
      (m.mergeOperator.isSome = true → buf' = buf ++ run.reverse) ∧
      (m.gatherBack fuel buf inner).2.Holds R rest := by
  induction run using List.reverseRecOn generalizing fuel inner buf with
  | nil =>
    obtain ⟨fuel, rfl⟩ := Nat.exists_eq_add_one_of_ne_zero (Nat.ne_zero_of_lt hfuel)
    obtain ⟨hlast, hinner⟩ := Peekable.nextBack_spec hR.back h
    rw [getLast?_concat] at hlast
    rw [dropLast_concat] at hinner
    obtain ⟨hpeek, hinner'⟩ := Peekable.peekBack_spec hR.back hinner
    refine ⟨buf, ?_⟩
    rw [gatherBack, show inner.nextBack = (some e, inner.nextBack.2) from Prod.ext hlast rfl]
    dsimp only
    rcases hprev : inner.nextBack.2.peekBack with ⟨_ | prev, inner'⟩
    · rw [hprev] at hinner'
      exact ⟨rfl, by simp, hinner'⟩
    · rw [hprev] at hpeek hinner'
      have hkey := hrest prev hpeek.symm
      simp only [ne_eq, hkey, not_false_eq_true, if_true]
      exact ⟨trivial, by simp, hinner'⟩
  | append_singleton run tail ih =>
    obtain ⟨fuel, rfl⟩ := Nat.exists_eq_add_one_of_ne_zero (Nat.ne_zero_of_lt hfuel)
    have hsplit : rest ++ e :: (run ++ [tail]) = (rest ++ e :: run) ++ [tail] := by simp
    rw [hsplit] at h
    obtain ⟨hlast, hinner⟩ := Peekable.nextBack_spec hR.back h
    rw [getLast?_concat] at hlast
    rw [dropLast_concat] at hinner
    obtain ⟨hpeek, hinner'⟩ := Peekable.peekBack_spec hR.back hinner
    obtain ⟨htail, hrun⟩ : tail.userKey = e.userKey ∧ ∀ f ∈ run, f.userKey = e.userKey :=
      ⟨hrun tail (by simp), fun f hf => hrun f (by simp [hf])⟩
    rw [gatherBack, show inner.nextBack = (some tail, inner.nextBack.2) from Prod.ext hlast rfl]
    dsimp only
    rcases hprev : inner.nextBack.2.peekBack with ⟨prev, inner'⟩
    rw [hprev] at hpeek hinner'
    obtain ⟨prev, rfl, hkey⟩ : ∃ p, prev = some p ∧ p.userKey = tail.userKey := by
      rw [getLast?_append_of_ne_nil _ (cons_ne_nil e run)] at hpeek
      refine ⟨(e :: run).getLast (cons_ne_nil e run), ?_, ?_⟩
      · rw [← getLast?_eq_some_getLast]
        exact hpeek
      · rw [htail]
        rcases mem_cons.1 (getLast_mem (cons_ne_nil e run)) with hmem | hmem
        · rw [hmem]
        · exact hrun _ hmem
    simp only [ne_eq, hkey, not_true_eq_false, if_false]
    obtain ⟨buf', hres, hbuf, hleft⟩ :=
      ih hinner' hrun (by simpa using hfuel) (if m.mergeOperator.isSome then buf ++ [tail] else buf)
    refine ⟨buf', hres, fun hsome => ?_, hleft⟩
    rw [hbuf hsome, if_pos hsome]
    simp

theorem nextBackFrom_spec (hR : Yields R) (h : inner.Holds R (rest ++ e :: run))
    (hrun : ∀ f ∈ run, f.userKey = e.userKey) (hrest : ∀ f ∈ rest.getLast?, f.userKey ≠ e.userKey)
    (hsuffix : (e :: run).Pairwise fun a b => m.suppresses a = true → m.suppresses b = true) :
    (m.nextBackFrom inner).1 = m.keyItem (e :: run) ∧ (m.nextBackFrom inner).2.Holds R rest := by
  have hbound := (Peekable.yields hR).bound h
  rw [length_append, length_cons] at hbound
  obtain ⟨buf, hgather, hbuf, hleft⟩ :=
    @gatherBack_spec I K V _ m e _ R inner run rest (Iter.bound inner + 1) hR h hrun hrest
      (by omega) []
  refine ⟨?_, hleft⟩
  rw [← finishBack_eq hsuffix fun hsome => by simpa using hbuf hsome, nextBackFrom, hgather]
  rfl

theorem nextFrom_nil (hR : Yields R) (h : inner.Holds R []) :
    (m.nextFrom inner).1 = none ∧ (m.nextFrom inner).2.Holds R [] := by
  obtain ⟨hhead, hinner, -⟩ := Peekable.next_spec hR.front h
  rw [nextFrom, show inner.next = (none, inner.next.2) from Prod.ext hhead rfl]
  exact ⟨rfl, hinner⟩

theorem gatherBack_nil (hR : Yields R) (h : inner.Holds R []) :
    (m.gatherBack (fuel + 1) [] inner).1 = none ∧
      (m.gatherBack (fuel + 1) [] inner).2.Holds R [] := by
  obtain ⟨hlast, hinner⟩ := Peekable.nextBack_spec hR.back h
  rw [gatherBack, show inner.nextBack = (none, inner.nextBack.2) from Prod.ext hlast rfl]
  exact ⟨rfl, hinner⟩

end Loops

theorem keyItem_key {f : InternalValue K V} (h : m.keyItem (e :: es) = some f) :
    f.userKey = e.userKey := by
  unfold keyItem at h
  dsimp only at h
  cases hm : m.mergeOperator with
  | none =>
    rw [hm] at h
    exact congrArg _ (Option.some.inj h).symm
  | some op =>
    rw [hm] at h
    dsimp only at h
    split at h
    · split at h
      · rw [← Option.some.inj h]
      · split at h <;> rw [← Option.some.inj h]
    · rw [← Option.some.inj h]

theorem keyItem_isSome (e : InternalValue K V) (es : List (InternalValue K V)) :
    ∃ f, m.keyItem (e :: es) = some f := by
  unfold keyItem
  dsimp only
  repeat' split
  all_goals exact ⟨_, rfl⟩

end MvccRules

structure KeyRuns (runs : List (List (InternalValue K V))) : Prop where
  nonempty : [] ∉ runs
  sameKey : ∀ run ∈ runs, ∀ a ∈ run, ∀ b ∈ run, a.userKey = b.userKey
  newestFirst : ∀ run ∈ runs, run.Pairwise fun a b => InternalValue.le a b = true
  ascending : runs.Pairwise fun run run' => ∀ a ∈ run, ∀ b ∈ run', a.userKey < b.userKey

namespace KeyRuns

variable {runs runs' : List (List (InternalValue K V))} {e : InternalValue K V}
  {run es : List (InternalValue K V)}

theorem sublist (h : KeyRuns runs) (hsub : runs'.Sublist runs) : KeyRuns runs' where
  nonempty hnil := h.nonempty (hsub.subset hnil)
  sameKey run hrun := h.sameKey run (hsub.subset hrun)
  newestFirst run hrun := h.newestFirst run (hsub.subset hrun)
  ascending := h.ascending.sublist hsub

theorem exists_cons (h : KeyRuns runs) (hrun : run ∈ runs) : ∃ e es, run = e :: es := by
  cases run with
  | nil => exact absurd hrun h.nonempty
  | cons e es => exact ⟨e, es, rfl⟩

theorem cons (h : KeyRuns runs) (he : ∀ f ∈ runs.flatten, InternalValue.le e f = true) :
    ∃ runs', KeyRuns runs' ∧ runs'.flatten = e :: runs.flatten := by
  cases runs with
  | nil => exact ⟨[[e]], ⟨by simp, by simp, by simp, by simp⟩, rfl⟩
  | cons run runs =>
    obtain ⟨f, fs, rfl⟩ := h.exists_cons mem_cons_self
    have hasc := pairwise_cons.1 h.ascending
    have hsame : ∀ a ∈ f :: fs, a.userKey = f.userKey :=
      fun a ha => h.sameKey _ mem_cons_self a ha f mem_cons_self
    by_cases hkey : e.userKey = f.userKey
    · refine ⟨(e :: f :: fs) :: runs, ⟨?_, ?_, ?_, ?_⟩, rfl⟩
      · simpa using h.nonempty
      · refine forall_mem_cons.2 ⟨?_, fun r hr => h.sameKey r (mem_cons_of_mem _ hr)⟩
        have hall : ∀ a ∈ e :: f :: fs, a.userKey = f.userKey :=
          forall_mem_cons.2 ⟨hkey, hsame⟩
        exact fun a ha b hb => (hall a ha).trans (hall b hb).symm
      · refine forall_mem_cons.2 ⟨?_, fun r hr => h.newestFirst r (mem_cons_of_mem _ hr)⟩
        refine pairwise_cons.2 ⟨fun a ha => he a ?_, h.newestFirst _ mem_cons_self⟩
        exact mem_flatten.2 ⟨_, mem_cons_self, ha⟩
      · refine pairwise_cons.2 ⟨fun r hr => ?_, hasc.2⟩
        refine forall_mem_cons.2 ⟨fun b hb => ?_, hasc.1 r hr⟩
        rw [hkey]
        exact hasc.1 r hr f mem_cons_self b hb
    · refine ⟨[e] :: (f :: fs) :: runs, ⟨?_, ?_, ?_, ?_⟩, rfl⟩
      · simpa using h.nonempty
      · exact forall_mem_cons.2 ⟨by simp, h.sameKey⟩
      · exact forall_mem_cons.2 ⟨pairwise_singleton _ _, h.newestFirst⟩
      · have hlt : e.userKey < f.userKey :=
          lt_of_le_of_ne (InternalValue.le_key.1 (he f (by simp))) hkey
        refine pairwise_cons.2 ⟨fun r hr a ha b hb => ?_, h.ascending⟩
        obtain rfl := mem_singleton.1 ha
        rcases mem_cons.1 hr with rfl | hr
        · rw [hsame b hb]
          exact hlt
        · exact hlt.trans (hasc.1 r hr f mem_cons_self b hb)

theorem of_sorted {items : List (InternalValue K V)}
    (hs : items.Pairwise fun a b => a.le b = true) :
    ∃ runs, KeyRuns runs ∧ runs.flatten = items := by
  induction items with
  | nil => exact ⟨[], ⟨by simp, by simp, by simp, List.Pairwise.nil⟩, rfl⟩
  | cons e items ih =>
    obtain ⟨he, hs⟩ := pairwise_cons.1 hs
    obtain ⟨runs, hruns, rfl⟩ := ih hs
    exact hruns.cons he

theorem key_eq (h : KeyRuns runs) (hrun : e :: es ∈ runs) : ∀ f ∈ es, f.userKey = e.userKey :=
  fun f hf => h.sameKey _ hrun f (mem_cons_of_mem e hf) e mem_cons_self

theorem head_key_ne (h : KeyRuns ((e :: es) :: runs)) :
    ∀ f ∈ runs.flatten.head?, f.userKey ≠ e.userKey := by
  intro f hf
  obtain ⟨run, hrun, hfr⟩ := mem_flatten.1 (mem_of_mem_head? hf)
  exact ((pairwise_cons.1 h.ascending).1 run hrun e mem_cons_self f hfr).ne'

theorem getLast_key_ne (h : KeyRuns (runs ++ [e :: es])) :
    ∀ f ∈ runs.flatten.getLast?, f.userKey ≠ e.userKey := by
  intro f hf
  obtain ⟨run, hrun, hfr⟩ := mem_flatten.1 (mem_of_getLast? hf)
  have hlt := (pairwise_append.1 h.ascending).2.2 run hrun (e :: es) (by simp)
  exact (hlt f hfr e mem_cons_self).ne

theorem length_le (h : KeyRuns runs) : runs.length ≤ runs.flatten.length := by
  induction runs with
  | nil => exact Nat.le_refl _
  | cons run runs ih =>
    obtain ⟨e, es, rfl⟩ := h.exists_cons mem_cons_self
    have hrest := ih (h.sublist (sublist_cons_self _ _))
    simp only [length_cons, flatten_cons, length_append]
    omega

theorem suffix (h : KeyRuns runs) (hrun : run ∈ runs) (m : MvccRules K V) :
    run.Pairwise fun a b => m.suppresses a = true → m.suppresses b = true :=
  MvccRules.suppresses_suffix (h.sameKey run hrun) (h.newestFirst run hrun)

variable {m : MvccRules K V}

theorem filterMap_keyItem_ascending (h : KeyRuns runs) :
    (runs.filterMap m.keyItem).Pairwise fun a b => a.userKey < b.userKey := by
  refine pairwise_filterMap.2 (h.ascending.imp_of_mem ?_)
  intro run run' hrun hrun' hlt a ha b hb
  obtain ⟨e, es, rfl⟩ := h.exists_cons hrun
  obtain ⟨f, fs, rfl⟩ := h.exists_cons hrun'
  rw [MvccRules.keyItem_key ha, MvccRules.keyItem_key hb]
  exact hlt e mem_cons_self f mem_cons_self

theorem filter_run (h : KeyRuns runs) (hrun : e :: es ∈ runs) :
    (e :: es).filter (fun f => f.userKey = e.userKey) = e :: es := by
  refine filter_eq_self.2 fun f hf => decide_eq_true ?_
  exact h.sameKey _ hrun f hf e mem_cons_self

theorem filter_rest (h : KeyRuns ((e :: es) :: runs)) :
    runs.flatten.filter (fun f => f.userKey = e.userKey) = [] := by
  refine filter_eq_nil_iff.2 fun f hf => ?_
  obtain ⟨run, hrun, hfr⟩ := mem_flatten.1 hf
  simpa using ((pairwise_cons.1 h.ascending).1 run hrun e mem_cons_self f hfr).ne'

theorem filter_eq (h : KeyRuns runs) (hrun : e :: es ∈ runs) :
    runs.flatten.filter (fun f => f.userKey = e.userKey) = e :: es := by
  induction runs with
  | nil => cases hrun
  | cons run runs ih =>
    rw [flatten_cons, filter_append]
    rcases mem_cons.1 hrun with rfl | hmem
    · rw [h.filter_run hrun, h.filter_rest, append_nil]
    · have hnone : run.filter (fun f => f.userKey = e.userKey) = [] := by
        refine filter_eq_nil_iff.2 fun f hf => ?_
        simpa using ((pairwise_cons.1 h.ascending).1 _ hmem f hf e mem_cons_self).ne
      rw [hnone, nil_append, ih (h.sublist (sublist_cons_self _ _)) hmem]

theorem filterMap_keyItem_filter (h : KeyRuns runs) (k : K) :
    (runs.filterMap m.keyItem).filter (fun e => e.userKey = k) =
      (m.keyItem (runs.flatten.filter fun e => e.userKey = k)).toList := by
  induction runs with
  | nil => rfl
  | cons run runs ih =>
    obtain ⟨e, es, rfl⟩ := h.exists_cons mem_cons_self
    obtain ⟨f, hf⟩ := m.keyItem_isSome e es
    have hkey := MvccRules.keyItem_key hf
    have hrest := ih (h.sublist (sublist_cons_self _ _))
    rw [filterMap_cons_some hf, flatten_cons, filter_append]
    by_cases hk : e.userKey = k
    · subst hk
      rw [filter_cons_of_pos (by simpa using hkey), hrest, h.filter_run mem_cons_self,
        h.filter_rest, append_nil, hf]
      rfl
    · have hnone : (e :: es).filter (fun a => a.userKey = k) = [] := by
        refine filter_eq_nil_iff.2 fun a ha => ?_
        rw [h.sameKey _ mem_cons_self a ha e mem_cons_self]
        simpa using hk
      rw [filter_cons_of_neg (by simpa [hkey] using hk), hrest, hnone, nil_append]

end KeyRuns

namespace MvccIterator

variable [Iter I (InternalValue K V)] {R : I → List (InternalValue K V) → Prop}

def Serves (R : I → List (InternalValue K V) → Prop) (m : MvccIterator I K V)
    (out : List (InternalValue K V)) : Prop :=
  ∃ runs, KeyRuns runs ∧ m.inner.Holds R runs.flatten ∧ out = runs.filterMap m.rules.keyItem

variable {m : MvccIterator I K V} {out : List (InternalValue K V)}

theorem Serves.next (hR : Yields R) (h : Serves R m out) :
    (Iter.next m).1 = out.head? ∧ Serves R (Iter.next m).2 out.tail := by
  obtain ⟨runs, hruns, hinner, rfl⟩ := h
  cases runs with
  | nil =>
    obtain ⟨hitem, hleft⟩ := m.rules.nextFrom_nil hR hinner
    exact ⟨hitem, [], hruns, hleft, rfl⟩
  | cons run runs =>
    obtain ⟨e, es, rfl⟩ := hruns.exists_cons mem_cons_self
    obtain ⟨hitem, hleft⟩ := MvccRules.nextFrom_spec hR hinner
      (hruns.key_eq mem_cons_self) hruns.head_key_ne
      (hruns.suffix mem_cons_self m.rules)
    obtain ⟨f, hf⟩ := m.rules.keyItem_isSome e es
    rw [filterMap_cons_some hf]
    exact ⟨hitem.trans hf, runs, hruns.sublist (sublist_cons_self _ _), hleft, rfl⟩

theorem Serves.nextBack (hR : Yields R) (h : Serves R m out) :
    (Iter.nextBack m).1 = out.getLast? ∧ Serves R (Iter.nextBack m).2 out.dropLast := by
  obtain ⟨runs, hruns, hinner, rfl⟩ := h
  rcases eq_nil_or_concat' runs with rfl | ⟨runs, run, rfl⟩
  · obtain ⟨hnone, hleft⟩ := m.rules.gatherBack_nil hR hinner
    exact ⟨congrArg (Option.map _) hnone, [], hruns, hleft, rfl⟩
  · have hmem : run ∈ runs ++ [run] := by simp
    obtain ⟨e, es, rfl⟩ := hruns.exists_cons hmem
    rw [flatten_append, flatten_singleton] at hinner
    obtain ⟨hitem, hleft⟩ := MvccRules.nextBackFrom_spec hR hinner
      (hruns.key_eq hmem) hruns.getLast_key_ne
      (hruns.suffix hmem m.rules)
    obtain ⟨f, hf⟩ := m.rules.keyItem_isSome e es
    have hone : [e :: es].filterMap m.rules.keyItem = [f] := filterMap_cons_some hf
    rw [filterMap_append, hone, getLast?_concat, dropLast_concat]
    exact ⟨hitem.trans hf, runs, hruns.sublist (sublist_append_left _ _), hleft,
      rfl⟩

theorem yields (hR : Yields R) : Yields (Serves (K := K) (V := V) R) where
  next h := h.next hR
  nextBack h := h.nextBack hR
  bound {m out} h := by
    obtain ⟨runs, hruns, hinner, rfl⟩ := h
    have hbound := (Peekable.yields hR).bound hinner
    exact (length_filterMap_le _ _).trans (hruns.length_le.trans hbound)

/-- Over a sorted stream the iterator yields one item for each key, from both ends. -/
theorem drive_new (hR : Yields R) (rules : MvccRules K V) {inner : I}
    {items : List (InternalValue K V)} (hinner : R inner items)
    (hs : items.Pairwise fun a b => InternalValue.le a b = true) :
    ∃ out : List (InternalValue K V),
      out.Pairwise (fun a b => a.userKey < b.userKey) ∧
      (∀ k, out.filter (fun e => e.userKey = k) =
        (rules.keyItem (items.filter fun e => e.userKey = k)).toList) ∧
      (∀ calls, drive calls (new rules inner) = drive calls out) ∧
      drive (List.replicate out.length .front) (new rules inner) = out.map some ∧
      drive (List.replicate out.length .back) (new rules inner) = out.reverse.map some := by
  obtain ⟨runs, hruns, rfl⟩ := KeyRuns.of_sorted hs
  have hserves : Serves R (new rules inner) (runs.filterMap rules.keyItem) :=
    ⟨runs, hruns, Peekable.holds_new hinner, rfl⟩
  have hdrive := (yields hR).drive_eq hserves
  refine ⟨_, hruns.filterMap_keyItem_ascending, hruns.filterMap_keyItem_filter, hdrive, ?_, ?_⟩
  · rw [hdrive, drive_front]
  · rw [hdrive, drive_back]

def counterRules : MvccRules ℕ ℕ :=
  ⟨some ⟨fun _ base ops => base.getD 0 + ops.sum⟩, [(⟨0, 2, 4⟩, 10)]⟩

/-- Under the range delete at 4, key 1 keeps its newest operand and key 2 lies outside. -/
def counterItems : List (InternalValue ℕ ℕ) :=
  [⟨1, 6, .mergeOperand, 5⟩, ⟨1, 3, .mergeOperand, 7⟩, ⟨1, 2, .value, 1⟩,
    ⟨2, 5, .mergeOperand, 4⟩, ⟨2, 1, .value, 30⟩]

theorem counterItems_driven :
    drive [.back, .front, .front] (new counterRules counterItems) =
      [some ⟨2, 5, .value, 34⟩, some ⟨1, 6, .value, 5⟩, none] ∧
      ∃ out : List (InternalValue ℕ ℕ),
        ∀ calls, drive calls (new counterRules counterItems) = drive calls out := by
  obtain ⟨out, -, -, hdrive, -⟩ :=
    @drive_new _ _ _ _ _ _ yields_list counterRules counterItems _ rfl (by decide)
  exact ⟨by decide, out, hdrive⟩

end MvccIterator

end LsmTree
