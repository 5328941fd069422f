import LsmTree.Compaction.Provenance
import LsmTree.Compaction.StreamReads
import LsmTree.Theory.Interleaving

/-! A compaction cut into key ranges that are compacted apart, against the same compaction by one
stream. -/
namespace LsmTree

open List

variable {K V : Type*} [LinearOrder K]

/-- The rows that `Table::range` can yield: `deleted` is the delete bitmap of each table, by id and
row position. -/
def Table.liveEntries (deleted : ℕ → ℕ → Bool) (t : Table K V) : List (InternalValue K V) :=
  (t.entries.zipIdx.filter fun row => !deleted t.id row.2).map (·.1)

omit [LinearOrder K] in
theorem Table.liveEntries_sublist (deleted : ℕ → ℕ → Bool) (t : Table K V) :
    (t.liveEntries deleted).Sublist t.entries := by
  have h := (filter_sublist (p := fun row => !deleted t.id row.2)
    (l := t.entries.zipIdx)).map Prod.fst
  rwa [zipIdx_map_fst] at h

omit [LinearOrder K] in
theorem Table.liveEntries_of_none {deleted : ℕ → ℕ → Bool} {t : Table K V}
    (h : ∀ i, deleted t.id i = false) : t.liveEntries deleted = t.entries := by
  unfold liveEntries
  rw [filter_eq_self.2 (by simp [h]), zipIdx_map_fst]

/-- All rows, each with its mark. -/
def Table.markedEntries (deleted : ℕ → ℕ → Bool) (t : Table K V) : List (InternalValue K V × Bool) :=
  t.entries.zipIdx.map fun row => (row.1, deleted t.id row.2)

omit [LinearOrder K] in
theorem Table.markedEntries_live (deleted : ℕ → ℕ → Bool) (t : Table K V) :
    ((t.markedEntries deleted).filter fun row => !row.2).map (·.1) = t.liveEntries deleted := by
  rw [markedEntries, filter_map, map_map]
  rfl

omit [LinearOrder K] in
theorem Table.markedEntries_fst (deleted : ℕ → ℕ → Bool) (t : Table K V) :
    (t.markedEntries deleted).map (·.1) = t.entries := by
  rw [markedEntries, map_map]
  exact zipIdx_map_fst ..

namespace StreamConfig

section Behind

variable {c : StreamConfig K V} {k : K} {s : InternalValue K V}

theorem collectOperands_front (hs : s.isMergeOperand = false) (hsk : s.userKey = k)
    (front : List (InternalValue K V)) (hf : ∀ e ∈ front, e.userKey = k) :
    (∃ ops loopEnd, ∀ post : List (InternalValue K V), (∀ e ∈ post, e.userKey = k) →
      c.collectOperands k (front ++ s :: post) = (ops, loopEnd, [])) ∨
    ∃ ops rest, ops ++ rest = front ∧ ∀ post : List (InternalValue K V),
      c.collectOperands k (front ++ s :: post) = (ops, .indirection, rest ++ s :: post) := by
  induction front with
  | nil =>
    cases hty : s.valueType with
    | mergeOperand => simp [InternalValue.isMergeOperand, hty] at hs
    | indirection => exact Or.inr ⟨[], [], rfl, fun post => by simp [collectOperands, hsk, hty]⟩
    | value =>
      refine Or.inl ⟨[], .boundary (if c.coveredByAppliedTombstone k s.seqno then none
        else some s.value), fun post hp => ?_⟩
      simp [collectOperands, hsk, hty, drainKey_own hp]
    | tombstone | weakTombstone =>
      exact Or.inl ⟨[], .boundary none, fun post hp => by
        simp [collectOperands, hsk, hty, drainKey_own hp]⟩
  | cons x front ih =>
    obtain ⟨hx, hf⟩ := forall_mem_cons.1 hf
    have hdrain : ∀ post : List (InternalValue K V), (∀ e ∈ post, e.userKey = k) →
        drainKey k (front ++ s :: post) = [] := fun post hp =>
      drainKey_own (forall_mem_append.2 ⟨hf, forall_mem_cons.2 ⟨hsk, hp⟩⟩)
    cases hty : x.valueType with
    | mergeOperand =>
      rcases ih hf with ⟨ops, loopEnd, h⟩ | ⟨ops, rest, rfl, h⟩
      · exact Or.inl ⟨x :: ops, loopEnd, fun post hp => by
          simp [collectOperands, hx, hty, h post hp]⟩
      · refine Or.inr ⟨x :: ops, rest, rfl, fun post => ?_⟩
        simp only [cons_append, collectOperands, hx, hty, h post, if_true]
    | indirection =>
      exact Or.inr ⟨[], x :: front, rfl, fun post => by simp [collectOperands, hx, hty]⟩
    | value =>
      refine Or.inl ⟨[], .boundary (if c.coveredByAppliedTombstone k x.seqno then none
        else some x.value), fun post hp => ?_⟩
      simp [collectOperands, hx, hty, hdrain post hp]
    | tombstone | weakTombstone =>
      exact Or.inl ⟨[], .boundary none, fun post hp => by
        simp [collectOperands, hx, hty, hdrain post hp]⟩

/-- The turn drains the key or stops at `s` at the latest, whatever lies behind `s`. -/
def StopsAt (k : K) (s : InternalValue K V) (pending front : List (InternalValue K V))
    (turn : List (InternalValue K V) → Turn K V) : Prop :=
  ∃ out pending', (∀ post, (∀ e ∈ post, e.userKey = k) → turn post = ⟨out, pending', []⟩) ∨
    ∃ rest, (pending' ++ rest).Sublist (pending ++ front) ∧
      ∀ post, turn post = ⟨out, pending', rest ++ s :: post⟩

variable {head : InternalValue K V} {pending front : List (InternalValue K V)}

theorem collapse_stopsAt (hs : s.isMergeOperand = false) (hsk : s.userKey = k)
    (hh : head.userKey = k) (hf : ∀ e ∈ front, e.userKey = k) :
    StopsAt k s pending front fun post => c.collapse head pending (front ++ s :: post) := by
  unfold collapse resolveWithOperator
  cases c.mergeOperator with
  | none => exact ⟨(c.emit head [] []).out, pending ++ [], Or.inr ⟨front, by simp, fun post => rfl⟩⟩
  | some m =>
    simp only [resolveMergeOperands, hh]
    rcases c.collectOperands_front hs hsk front hf with ⟨ops, loopEnd, h⟩ | ⟨ops, rest, rfl, h⟩
    · cases loopEnd with
      | indirection =>
        exact ⟨(c.emit head [] []).out, pending ++ ops,
          Or.inl fun post hp => by simp only [h post hp]; rfl⟩
      | exhausted =>
        exact ⟨(c.emit ⟨k, head.seqno, .mergeOperand, m.merge k none
          (c.uncoveredOperands (head :: ops))⟩ [] []).out, pending ++ [],
          Or.inl fun post hp => by simp only [h post hp]; rfl⟩
      | boundary base =>
        exact ⟨(c.emit ⟨k, head.seqno, .value, m.merge k base
          (c.uncoveredOperands (head :: ops))⟩ [] []).out, pending ++ [],
          Or.inl fun post hp => by simp only [h post hp]; rfl⟩
    · refine ⟨(c.emit head [] []).out, pending ++ ops, Or.inr ⟨rest, by simp, fun post => ?_⟩⟩
      simp only [h post]
      rfl

theorem turn_stopsAt (hs : s.isMergeOperand = false) (hsk : s.userKey = k)
    (hh : head.userKey = k) (hf : ∀ e ∈ front, e.userKey = k) :
    StopsAt k s pending front fun post => c.turn head pending (front ++ s :: post) := by
  have hdrain : ∀ post : List (InternalValue K V), (∀ e ∈ post, e.userKey = k) →
      drainKey head.userKey (front ++ s :: post) = [] := fun post hp =>
    hh.symm ▸ drainKey_own (forall_mem_append.2 ⟨hf, forall_mem_cons.2 ⟨hsk, hp⟩⟩)
  have hshadow : ∀ peeked, StopsAt k s pending front fun post =>
      c.turnShadowing head peeked pending (front ++ s :: post) := by
    intro peeked
    unfold turnShadowing
    split_ifs
    · exact ⟨none, pending, Or.inl fun post hp => congrArg (Turn.mk none pending) (hdrain post hp)⟩
    · exact ⟨none, pending, Or.inl fun post hp => congrArg (Turn.mk none pending) (hdrain post hp)⟩
    · exact collapse_stopsAt hs hsk hh hf
    · exact ⟨(c.emit head [] []).out, pending, Or.inr ⟨front, List.Sublist.refl _, fun post => rfl⟩⟩
    · exact ⟨(c.emit head [] []).out, pending, Or.inl fun post hp =>
        congrArg (c.emit head pending) (hdrain post hp)⟩
    · exact ⟨(c.emit head [] []).out, pending, Or.inr ⟨front, List.Sublist.refl _, fun post => rfl⟩⟩
    · exact ⟨(c.emit head [] []).out, pending, Or.inr ⟨front, List.Sublist.refl _, fun post => rfl⟩⟩
  cases front with
  | nil => simpa only [nil_append, turn, hsk, hh, if_true] using hshadow s
  | cons x front =>
    simpa only [cons_append, turn, hf x mem_cons_self, hh, if_true] using hshadow x

variable {post post' : List (InternalValue K V)}

/-- An entry that is no operand hides what lies behind it from the entries before it. -/
theorem run_front (hs : s.isMergeOperand = false) (hsk : s.userKey = k)
    (hp : ∀ e ∈ post, e.userKey = k) (hp' : ∀ e ∈ post', e.userKey = k)
    (h : c.run [] (s :: post) = c.run [] (s :: post')) (pending front : List (InternalValue K V))
    (hk : ∀ e ∈ pending ++ front, e.userKey = k) :
    c.run pending (front ++ s :: post) = c.run pending (front ++ s :: post') := by
  induction hn : pending.length + front.length using Nat.strong_induction_on
    generalizing pending front with
  | _ n ih =>
    have hstep : ∀ head pending' front', pending'.length + front'.length < n →
        (∀ e ∈ head :: (pending' ++ front'), e.userKey = k) → ∀ t t' : Turn K V,
        t = c.turn head pending' (front' ++ s :: post) →
        t' = c.turn head pending' (front' ++ s :: post') →
        t.out.toList ++ c.run t.pending t.inner = t'.out.toList ++ c.run t'.pending t'.inner := by
      rintro head pending' front' hlt hkeys t t' rfl rfl
      obtain ⟨hh, hkeys⟩ := forall_mem_cons.1 hkeys
      have hstops : StopsAt k s pending' front' fun post =>
          c.turn head pending' (front' ++ s :: post) :=
        turn_stopsAt hs hsk hh fun e he => hkeys e (mem_append_right _ he)
      obtain ⟨out, left, hdrained | ⟨rest, hsub, hleft⟩⟩ := hstops
      · simp only [hdrained post hp, hdrained post' hp']
      · have hlen := hsub.length_le
        simp only [length_append] at hlen
        simp only [hleft]
        rw [ih _ (by omega) left rest (fun e he => hkeys e (hsub.subset he)) rfl]
    cases pending with
    | cons head pending =>
      rw [run_pending, run_pending]
      exact hstep head pending front (by simp at hn; omega) (by simpa using hk) _ _ rfl rfl
    | nil =>
      cases front with
      | nil => exact h
      | cons head front =>
        rw [cons_append, cons_append, run_input, run_input]
        exact hstep head [] front (by simp at hn ⊢; omega) (by simpa using hk) _ _ rfl rfl

/-- The entry goes, given the one behind it. -/
def vanishes (c : StreamConfig K V) (s : InternalValue K V) : Option (InternalValue K V) → Bool
  | none => s.isTombstone && c.evictTombstones
  | some peeked => s.valueType == .tombstone && c.evictTombstones ||
      s.valueType == .weakTombstone && peeked.valueType == .value

omit [LinearOrder K] in
theorem vanishes_of_ne (h : s.valueType ≠ .weakTombstone) (o : Option (InternalValue K V)) :
    c.vanishes s o = (s.valueType == .tombstone && c.evictTombstones) := by
  cases o with
  | none =>
    cases hty : s.valueType <;>
      simp_all [vanishes, InternalValue.isTombstone, ValueType.isTombstone]
  | some peeked => simp [vanishes, h]

theorem run_settled (hs : s.isMergeOperand = false) (hw : s.seqno < c.gcSeqnoThreshold)
    (hp : ∀ e ∈ post, e.userKey = s.userKey ∧ e.seqno < c.gcSeqnoThreshold) :
    c.run [] (s :: post) =
      if c.vanishes s post.head? then [] else (c.emit s [] []).out.toList := by
  have hdrain : drainKey s.userKey post = [] := drainKey_own fun e he => (hp e he).1
  have hturn : c.turn s [] post =
      if c.vanishes s post.head? then ⟨none, [], []⟩ else c.emit s [] [] := by
    cases post with
    | nil => simp [turn, turnLast, vanishes, hs]
    | cons p post =>
      obtain ⟨hpk, hpw⟩ := hp p mem_cons_self
      simp only [turn, turnShadowing, vanishes, hpk, hpw, hw, hs, hdrain, head?_cons]
      by_cases ht : s.valueType = .tombstone <;> by_cases hweak : s.valueType = .weakTombstone <;>
        simp_all
  rw [run_input, hturn]
  split_ifs
  · rfl
  · rw [emit_pending, emit_inner, run_nil, append_nil]

theorem run_covered {pending inner : List (InternalValue K V)}
    (h : ∀ e ∈ pending ++ inner, c.coveredByAppliedTombstone e.userKey e.seqno = true) :
    c.run pending inner = [] := by
  apply eq_nil_iff_forall_not_mem.2
  intro e he
  obtain ⟨f, hf, hyields⟩ := run_yields pending inner e he
  have hun := run_uncovered pending inner e he
  rw [hyields.userKey, hyields.seqno, h f hf] at hun
  cases hun

theorem run_overCovered (hs : s.isMergeOperand = false) (ht : s.isTombstone = false)
    (hp : ∀ e ∈ post, e.userKey = s.userKey ∧
      c.coveredByAppliedTombstone e.userKey e.seqno = true) :
    c.run [] (s :: post) = (c.emit s [] []).out.toList := by
  have hnone : c.run [] post = [] := run_covered fun e he => (hp e he).2
  have hdrain : drainKey s.userKey post = [] := drainKey_own fun e he => (hp e he).1
  have hty : s.valueType ≠ .tombstone ∧ s.valueType ≠ .weakTombstone := by
    constructor <;> intro h <;> simp [InternalValue.isTombstone, ValueType.isTombstone, h] at ht
  rw [run_input]
  cases post with
  | nil => simp [turn, turnLast, hs, ht]
  | cons p post =>
    obtain ⟨hpk, hpc⟩ := hp p mem_cons_self
    obtain ⟨rt, -, hrt, -, hlt⟩ := covered_iff.1 hpc
    simp only [turn, turnShadowing, hpk, hty, hs, hlt.trans hrt, hdrain, false_and, if_false,
      if_true, Bool.false_eq_true]
    split_ifs <;> simp [hnone, emit]

/-- Of the rows of a key, newest first and each with its mark, the marked ones make no difference:
there is none; or range deletes take the whole key; or the marked ones lie behind a row that
settles the key, or behind a value and under range deletes. -/
def MarksIdle (c : StreamConfig K V) (rows : List (InternalValue K V × Bool)) : Prop :=
  (∀ row ∈ rows, row.2 = false) ∨
  (∀ row ∈ rows, c.coveredByAppliedTombstone row.1.userKey row.1.seqno = true) ∨
  ∃ front s back, rows = front ++ (s, false) :: back ∧ (∀ row ∈ front, row.2 = false) ∧
    s.isMergeOperand = false ∧
    (s.seqno < c.gcSeqnoThreshold ∧
      (s.valueType = .weakTombstone → ∀ row ∈ back.head?, row.2 = false) ∨
    s.isTombstone = false ∧
      ∀ row ∈ back, c.coveredByAppliedTombstone row.1.userKey row.1.seqno = true)

theorem MarksIdle.compactionStream_eq {rows : List (InternalValue K V × Bool)}
    (h : c.MarksIdle rows) (hk : ∀ row ∈ rows, row.1.userKey = k)
    (hsorted : rows.Pairwise fun a b => b.1.seqno ≤ a.1.seqno) :
    c.compactionStream ((rows.filter fun row => !row.2).map (·.1)) =
      c.compactionStream (rows.map (·.1)) := by
  have hlive : ∀ {l : List (InternalValue K V × Bool)}, (∀ row ∈ l, row.2 = false) →
      (l.filter fun row => !row.2) = l := fun h => filter_eq_self.2 fun row hr => by simp [h row hr]
  rcases h with hnone | hcov | ⟨front, s, back, rfl, hfront, hs, hback⟩
  · rw [hlive hnone]
  · have hnil : ∀ {l : List (InternalValue K V × Bool)}, l ⊆ rows →
        c.compactionStream (l.map (·.1)) = [] := by
      intro l hl
      apply run_covered
      intro e he
      obtain ⟨row, hr, rfl⟩ := mem_map.1 he
      exact hcov row (hl hr)
    rw [hnil filter_sublist.subset, hnil (Subset.refl _)]
  · have hsk : s.userKey = k := hk (s, false) (by simp)
    have hback' : ∀ row ∈ back, row.1.userKey = s.userKey ∧ row.1.seqno ≤ s.seqno := fun row hr =>
      ⟨(hk row (by simp [hr])).trans hsk.symm,
        (pairwise_cons.1 (pairwise_append.1 hsorted).2.1).1 row hr⟩
    have hall : ∀ {P : InternalValue K V → Prop}, (∀ row ∈ back, P row.1) →
        (∀ e ∈ (back.filter fun row => !row.2).map (·.1), P e) ∧ ∀ e ∈ back.map (·.1), P e := by
      intro P hP
      exact ⟨forall_mem_map.2 fun row hr => hP row (mem_filter.1 hr).1, forall_mem_map.2 hP⟩
    have hbehind : c.run [] (s :: (back.filter fun row => !row.2).map (·.1)) =
        c.run [] (s :: back.map (·.1)) := by
      rcases hback with ⟨hw, hweak⟩ | ⟨ht, hcov⟩
      · obtain ⟨hlow, hlow'⟩ := @hall
          (fun e => e.userKey = s.userKey ∧ e.seqno < c.gcSeqnoThreshold)
          fun row hr => ⟨(hback' row hr).1, (hback' row hr).2.trans_lt hw⟩
        rw [run_settled hs hw hlow, run_settled hs hw hlow']
        by_cases hty : s.valueType = .weakTombstone
        · cases back with
          | nil => rfl
          | cons row back =>
            rw [filter_cons_of_pos (by simp [hweak hty row rfl])]
            rfl
        · rw [vanishes_of_ne hty, vanishes_of_ne hty]
      · obtain ⟨hunder, hunder'⟩ := @hall
          (fun e => e.userKey = s.userKey ∧ c.coveredByAppliedTombstone e.userKey e.seqno = true)
          fun row hr => ⟨(hback' row hr).1, hcov row hr⟩
        rw [run_overCovered hs ht hunder, run_overCovered hs ht hunder']
    obtain ⟨hkey, hkey'⟩ := @hall (fun e => e.userKey = k) fun row hr => hk row (by simp [hr])
    rw [filter_append, hlive hfront, filter_cons_of_pos (by simp), map_append, map_append, map_cons,
      map_cons]
    exact run_front hs hsk hkey hkey' hbehind [] _
      (forall_mem_map.2 fun row hr => hk row (mem_append_left _ hr))

end Behind

end StreamConfig

namespace Version

section Ranges

/-- The ranges that a compaction into `destLevel` is cut into for so many workers. -/
def subRanges (v : Version (Table K V)) (destLevel workers : ℕ) : List (SubRange K) :=
  rangesFromBoundaries none (v.subcompactionBoundaries destLevel workers)

theorem subRanges_ascending (v : Version (Table K V)) (destLevel workers : ℕ) :
    (v.subRanges destLevel workers).Pairwise fun r s =>
      ∀ k l, r.contains k = true → s.contains l = true → k < l :=
  rangesFromBoundaries_pairwise none (v.subcompactionBoundaries_sorted destLevel workers)

theorem SubRange.contains_iff {r : SubRange K} {k : K} : r.contains k = true ↔
    (∀ a ∈ r.lo, a ≤ k) ∧ ∀ b ∈ r.hi, k < b := by
  simp [SubRange.contains, Option.all_eq_true]

theorem rangesFromBoundaries_cover {lo : Option K} {k : K} (bs : List K) (hk : ∀ a ∈ lo, a ≤ k) :
    ∃ r ∈ rangesFromBoundaries lo bs, r.contains k = true := by
  induction bs generalizing lo with
  | nil => exact ⟨_, mem_singleton_self _, SubRange.contains_iff.2 ⟨hk, by simp⟩⟩
  | cons b bs ih =>
    by_cases hkb : k < b
    · exact ⟨_, mem_cons_self, SubRange.contains_iff.2 ⟨hk, by simpa using hkb⟩⟩
    · obtain ⟨r, hr, hrk⟩ := @ih (some b) (by simpa using hkb)
      exact ⟨r, mem_cons_of_mem _ hr, hrk⟩

theorem subRanges_cover (v : Version (Table K V)) (destLevel workers : ℕ) (k : K) :
    ∃ r ∈ v.subRanges destLevel workers, r.contains k = true :=
  rangesFromBoundaries_cover _ (by simp)

end Ranges

def inputSources (v : Version (Table K V)) (ids : List ℕ) (deleted : ℕ → ℕ → Bool) :
    List (List (InternalValue K V)) :=
  (v.tables.filter (·.id ∈ ids)).map (·.liveEntries deleted)

/-- The rows of `k` in the order the serial stream reads them. -/
def keyRows (v : Version (Table K V)) (ids : List ℕ) (deleted : ℕ → ℕ → Bool) (k : K) :
    List (InternalValue K V × Bool) :=
  KWayMerge.mergeAll (fun a b => a.1.le b.1) ((v.tables.filter (·.id ∈ ids)).map fun t =>
    (t.markedEntries deleted).filter fun row => decide (row.1.userKey = k))

theorem mem_keyRows {v : Version (Table K V)} {ids : List ℕ} {deleted : ℕ → ℕ → Bool} {k : K}
    {row : InternalValue K V × Bool} (h : row ∈ v.keyRows ids deleted k) :
    row.1.userKey = k ∧ ∃ t ∈ v.tables, row ∈ t.markedEntries deleted := by
  obtain ⟨s, hs, hin⟩ := KWayMerge.mem_mergeAll.1 h
  obtain ⟨t, ht, rfl⟩ := mem_map.1 hs
  exact ⟨of_decide_eq_true (mem_filter.1 hin).2, t, (mem_filter.1 ht).1, (mem_filter.1 hin).1⟩

/-- `create_bounded_compaction_stream` where tables may carry a delete bitmap. -/
def rangeReaders (v : Version (Table K V)) (ids : List ℕ) (deleted : ℕ → ℕ → Bool)
    (r : SubRange K) : Option (List (List (InternalValue K V))) :=
  if (v.tables.filter (·.id ∈ ids)).length = ids.length then
    some ((v.inputSources ids deleted).map (·.filter fun e => r.contains e.userKey))
  else none

theorem compactionReaders_merge {v : Version (Table K V)} {ids : List ℕ} (hnd : ids.Nodup)
    (hall : ∀ id ∈ ids, ∃ t ∈ v.tables, t.id = id)
    (hsorted : ∀ run ∈ v.levels.flatten, (run.flatMap (·.entries)).Pairwise fun a b => a.le b = true)
    {readers : List (List (InternalValue K V))} (h : v.compactionReaders ids = some readers) :
    KWayMerge.mergeAll InternalValue.le readers =
      KWayMerge.mergeAll InternalValue.le
        ((v.tables.filter (·.id ∈ ids)).map (·.entries)) := by
  obtain ⟨rfl, -, hle⟩ := compactionReaders_exact hnd hall h
  unfold KWayMerge.mergeAll tables
  generalize v.levels.flatten = runs at hsorted hle ⊢
  induction runs with
  | nil => rfl
  | cons run runs ih =>
    obtain ⟨hrun, hruns⟩ := forall_mem_cons.1 hsorted
    obtain ⟨hcount, hcounts⟩ := forall_mem_cons.1 hle
    rw [flatMap_cons, foldr_append, ih hruns hcounts, flatten_cons,
      filter_append, map_append, foldr_append]
    rcases runReaders_covers.2 hcount with heq | heq
    · rw [heq]
    · have hpart : ((run.filter (·.id ∈ ids)).flatMap (·.entries)).Pairwise
          fun a b => a.le b = true :=
        hrun.sublist (List.Sublist.flatMap filter_sublist Table.entries)
      rw [flatMap_def] at hpart
      have hcut := @KWayMerge.foldr_merge_flatten _ InternalValue.le
        (fun _ _ _ => InternalValue.le_trans) _ hpart
      rw [heq, flatMap_def, hcut]
      rfl

end Version

namespace CompactionPayload

variable {p : CompactionPayload K V} {v : Version (Table K V)}
  {readers : List (List (InternalValue K V))}

theorem zeroSeqnos_filter (k : K) {enabled : Bool} {watermark : ℕ} {rts : List (RangeTombstone K)}
    {items : List (InternalValue K V)} :
    (zeroSeqnos enabled watermark rts items).filter (fun e => decide (e.userKey = k)) =
      zeroSeqnos enabled watermark rts (items.filter fun e => decide (e.userKey = k)) := by
  unfold zeroSeqnos
  split
  · rw [filter_map]
    congr 1
    apply filter_congr
    intro e _
    simp only [Function.comp_apply]
    split <;> rfl
  · rfl

theorem output_filter (k : K) (h : ∀ r ∈ readers, r.Pairwise fun a b => a.le b = true) :
    (p.output v readers).filter (fun e => decide (e.userKey = k)) =
      p.output v (readers.map (·.filter fun e => decide (e.userKey = k))) := by
  have hmerged : (KWayMerge.mergeAll InternalValue.le readers).Pairwise
      fun a b => a.userKey ≤ b.userKey :=
    mergeAll_keySorted fun r hr => (h r hr).imp InternalValue.le_key.1
  have hfilter : (KWayMerge.mergeAll InternalValue.le readers).filter
      (fun e => decide (e.userKey = k)) = _ :=
    @KWayMerge.mergeAll_filter _ InternalValue.le (fun _ _ _ => InternalValue.le_trans)
      (fun _ _ => InternalValue.le_of_not_le) _ _ h
  unfold output
  rw [zeroSeqnos_filter, StreamConfig.compactionStream_filter k hmerged, hfilter]

def subOutputs (p : CompactionPayload K V) (v : Version (Table K V)) (deleted : ℕ → ℕ → Bool)
    (workers : ℕ) : Option (List (List (InternalValue K V))) :=
  (v.subRanges p.destLevel workers).mapM fun r =>
    (v.rangeReaders p.tableIds deleted r).map (p.output v)

def keyOutput (p : CompactionPayload K V) (v : Version (Table K V)) (deleted : ℕ → ℕ → Bool)
    (k : K) : List (InternalValue K V) :=
  p.output v ((v.inputSources p.tableIds deleted).map (·.filter fun e => decide (e.userKey = k)))

section Cut

variable {deleted : ℕ → ℕ → Bool} {workers : ℕ} {k : K}

def rangeOutput (p : CompactionPayload K V) (v : Version (Table K V)) (deleted : ℕ → ℕ → Bool)
    (r : Version.SubRange K) : List (InternalValue K V) :=
  p.output v ((v.inputSources p.tableIds deleted).map (·.filter fun e => r.contains e.userKey))

theorem subOutputs_eq (h : (v.tables.filter (·.id ∈ p.tableIds)).length = p.tableIds.length) :
    p.subOutputs v deleted workers =
      some ((v.subRanges p.destLevel workers).map (p.rangeOutput v deleted)) := by
  unfold subOutputs Version.rangeReaders
  simp only [if_pos h, Option.map_some]
  exact mapM_pure

theorem rangeOutput_contains {r : Version.SubRange K} {e : InternalValue K V}
    (h : e ∈ p.rangeOutput v deleted r) : r.contains e.userKey = true := by
  obtain ⟨s, hs, f, hf, hkey⟩ := output_key_mem h
  obtain ⟨rows, -, rfl⟩ := mem_map.1 hs
  exact hkey ▸ (mem_filter.1 hf).2

variable (hsorted : ∀ run ∈ v.levels.flatten, (run.flatMap (·.entries)).Pairwise fun a b => a.le b = true)
include hsorted

theorem inputSources_sorted (ids : List ℕ) (deleted : ℕ → ℕ → Bool) :
    ∀ r ∈ v.inputSources ids deleted, r.Pairwise fun a b => a.le b = true := by
  intro r hr
  obtain ⟨t, ht, rfl⟩ := mem_map.1 hr
  obtain ⟨run, hrun, htrun⟩ := mem_flatten.1 (mem_filter.1 ht).1
  have hentries := (pairwise_flatMap.1 (hsorted run hrun)).1 t htrun
  exact hentries.sublist (t.liveEntries_sublist deleted)

theorem rangeOutput_filter (r : Version.SubRange K) :
    (p.rangeOutput v deleted r).filter (fun e => decide (e.userKey = k)) =
      if r.contains k = true then p.keyOutput v deleted k else [] := by
  have hsources : ∀ s ∈ (v.inputSources p.tableIds deleted).map
      (·.filter fun e => r.contains e.userKey), s.Pairwise fun a b => a.le b = true := by
    intro s hs
    obtain ⟨rows, hrows, rfl⟩ := mem_map.1 hs
    exact (inputSources_sorted hsorted p.tableIds deleted rows hrows).filter _
  unfold rangeOutput keyOutput
  rw [output_filter k hsources, map_map]
  simp only [Function.comp_def, SortedSearch.filter_filter_key]
  by_cases hk : r.contains k = true
  · simp only [if_pos hk]
  · simp only [if_neg hk]
    -- no source has a row
    apply eq_nil_iff_forall_not_mem.2
    intro e he
    obtain ⟨s, hs, f, hf, -⟩ := output_key_mem he
    obtain ⟨rows, -, rfl⟩ := mem_map.1 hs
    exact not_mem_nil hf

theorem keyRows_sorted (ids : List ℕ) (deleted : ℕ → ℕ → Bool) (k : K) :
    ∀ s ∈ (v.tables.filter (·.id ∈ ids)).map fun t => (t.markedEntries deleted).filter
      fun row => decide (row.1.userKey = k), s.Pairwise fun a b => a.1.le b.1 = true := by
  intro s hs
  obtain ⟨t, ht, rfl⟩ := mem_map.1 hs
  obtain ⟨run, hrun, htrun⟩ := mem_flatten.1 (mem_filter.1 ht).1
  have hentries := (pairwise_flatMap.1 (hsorted run hrun)).1 t htrun
  rw [← t.markedEntries_fst deleted, pairwise_map] at hentries
  exact hentries.filter _

theorem keyRows_filter (ids : List ℕ) (deleted : ℕ → ℕ → Bool) (k : K)
    (q : InternalValue K V × Bool → Bool) :
    ((v.keyRows ids deleted k).filter q).map (·.1) =
      KWayMerge.mergeAll InternalValue.le ((v.tables.filter (·.id ∈ ids)).map fun t =>
        (((t.markedEntries deleted).filter q).map (·.1)).filter fun e => decide (e.userKey = k)) := by
  have hcut := @KWayMerge.mergeAll_filter _ (fun a b : InternalValue K V × Bool => a.1.le b.1)
    (fun _ _ _ => InternalValue.le_trans) (fun _ _ => InternalValue.le_of_not_le) q _
    (keyRows_sorted hsorted ids deleted k)
  rw [Version.keyRows, hcut, KWayMerge.map_mergeAll_of_le InternalValue.le fun _ _ => rfl, map_map,
    map_map]
  congr 1
  apply map_congr_left
  intro t _
  rw [filter_map]
  simp only [Function.comp_apply, filter_filter, Bool.and_comm]

theorem keyRows_newest (ids : List ℕ) (deleted : ℕ → ℕ → Bool) (k : K) :
    (v.keyRows ids deleted k).Pairwise fun a b => b.1.seqno ≤ a.1.seqno := by
  have hle := @KWayMerge.mergeAll_pairwise _ (fun a b : InternalValue K V × Bool => a.1.le b.1)
    (fun a b => a.1.le b.1 = true) (fun _ _ _ => InternalValue.le_trans) (fun _ _ h => h)
    (fun _ _ => InternalValue.le_of_not_le) _ (keyRows_sorted hsorted ids deleted k)
  refine hle.imp_of_mem fun ha hb hle => ?_
  rcases InternalValue.le_iff.1 hle with hlt | hle
  · rw [(Version.mem_keyRows ha).1, (Version.mem_keyRows hb).1] at hlt
    exact absurd hlt (lt_irrefl k)
  · exact hle.2

theorem keyOutput_all (k : K) (deleted : ℕ → ℕ → Bool) :
    p.keyOutput v (fun _ _ => false) k =
      zeroSeqnos (v.isLastLevel p.destLevel) p.mvccGcWatermark v.rangeTombstones
        ((p.streamConfig v).compactionStream ((v.keyRows p.tableIds deleted k).map (·.1))) := by
  have hall := keyRows_filter hsorted p.tableIds deleted k fun _ => true
  simp only [filter_true, Table.markedEntries_fst] at hall
  unfold keyOutput output Version.inputSources
  simp only [map_map, Function.comp_def, Table.liveEntries_of_none, implies_true]
  rw [← hall]

theorem keyOutput_of_idle {k : K}
    (h : (p.streamConfig v).MarksIdle (v.keyRows p.tableIds deleted k)) :
    p.keyOutput v deleted k = p.keyOutput v (fun _ _ => false) k := by
  have hlive := keyRows_filter hsorted p.tableIds deleted k fun row => !row.2
  simp only [Table.markedEntries_live] at hlive
  rw [keyOutput_all hsorted k deleted, ← h.compactionStream_eq
    (fun row hr => (Version.mem_keyRows hr).1) (keyRows_newest hsorted p.tableIds deleted k), hlive]
  unfold keyOutput output Version.inputSources
  simp only [map_map, Function.comp_def]

theorem rangeOutputs_sorted :
    KeySorted ((v.subRanges p.destLevel workers).flatMap (p.rangeOutput v deleted)) := by
  apply pairwise_flatMap.2
  constructor
  · intro r _
    apply output_keySorted
    intro s hs
    obtain ⟨rows, hrows, rfl⟩ := mem_map.1 hs
    exact ((inputSources_sorted hsorted p.tableIds deleted rows hrows).imp
      InternalValue.le_key.1).filter _
  · apply (v.subRanges_ascending p.destLevel workers).imp
    intro r s hlt e he f hf
    exact (hlt _ _ (rangeOutput_contains he) (rangeOutput_contains hf)).le

theorem rangeOutputs_filter (k : K) :
    ((v.subRanges p.destLevel workers).flatMap (p.rangeOutput v deleted)).filter
      (fun e => decide (e.userKey = k)) = p.keyOutput v deleted k := by
  obtain ⟨r, hr, hrk⟩ := v.subRanges_cover p.destLevel workers k
  have hone : (v.subRanges p.destLevel workers).Pairwise fun r s =>
      ¬ (r.contains k = true ∧ s.contains k = true) := by
    apply (v.subRanges_ascending p.destLevel workers).imp
    rintro r s hlt ⟨hr, hs⟩
    exact lt_irrefl k (hlt k k hr hs)
  rw [filter_flatMap]
  simp only [rangeOutput_filter hsorted]
  rw [SortedSearch.flatMap_eq_of_unique hone (fun s _ hs => if_neg hs) hr hrk, if_pos hrk]

end Cut

section Serial

variable (hnd : p.tableIds.Nodup) (hall : ∀ id ∈ p.tableIds, ∃ t ∈ v.tables, t.id = id)
  (hsorted : ∀ run ∈ v.levels.flatten, (run.flatMap (·.entries)).Pairwise fun a b => a.le b = true)
  (hserial : v.compactionReaders p.tableIds = some readers)
include hnd hall hsorted hserial

/-- Both scan every input in key order. -/
theorem serial_output :
    p.output v readers = p.output v (v.inputSources p.tableIds fun _ _ => false) := by
  unfold output
  rw [Version.compactionReaders_merge hnd hall hsorted hserial]
  unfold Version.inputSources
  simp only [Table.liveEntries_of_none, implies_true]

theorem serial_output_sorted : KeySorted (p.output v readers) := by
  rw [serial_output hnd hall hsorted hserial]
  exact output_keySorted fun r hr =>
    (inputSources_sorted hsorted p.tableIds _ r hr).imp InternalValue.le_key.1

theorem serial_output_filter (k : K) :
    (p.output v readers).filter (fun e => decide (e.userKey = k)) =
      p.keyOutput v (fun _ _ => false) k := by
  rw [serial_output hnd hall hsorted hserial,
    output_filter k (inputSources_sorted hsorted p.tableIds _)]
  rfl

theorem subOutputs_eq_iff (deleted : ℕ → ℕ → Bool) (workers : ℕ) :
    (p.subOutputs v deleted workers).map List.flatten = some (p.output v readers) ↔
      ∀ k, p.keyOutput v deleted k = p.keyOutput v (fun _ _ => false) k := by
  obtain ⟨-, hfound, -⟩ := Version.compactionReaders_exact hnd hall hserial
  rw [subOutputs_eq hfound, Option.map_some, Option.some.injEq, ← flatMap_def]
  have hkey := serial_output_filter hnd hall hsorted hserial
  constructor
  · intro heq k
    rw [← rangeOutputs_filter hsorted k, heq, hkey]
  · intro hsame
    -- both sides are in key order, so they are compared key by key
    apply SortedSearch.eq_of_filter_key (rangeOutputs_sorted hsorted)
      (serial_output_sorted hnd hall hsorted hserial)
    intro k
    rw [rangeOutputs_filter hsorted k, hkey, hsame k]

end Serial

section Example

def compactThree : CompactionPayload (List Byte) ℕ where
  tableIds := [1, 2, 3]
  destLevel := 2
  mvccGcWatermark := 10
  mergeOperator := none
  compactionThreads := 2
  parallelEligible := true
  outputFull := fun _ _ _ => false
  newTableIds := fun i n => 4 + 10 * i + n

def inputsOver (entries : List (InternalValue (List Byte) ℕ)) :
    Version (Table (List Byte) ℕ) :=
  ⟨[[], [[⟨1, ⟨[1], [2]⟩, entries, [⟨[1], [2], 5⟩]⟩]],
    [[⟨2, ⟨[3], [3]⟩, [⟨[3], 1, .value, 8⟩], []⟩, ⟨3, ⟨[6], [6]⟩, [⟨[6], 1, .value, 9⟩], []⟩]],
    []]⟩

end Example

end CompactionPayload

end LsmTree
