import LsmTree.Read.History

/-! The point read and the scan both resolve the history of the key. -/
namespace LsmTree

open List

variable {K V : Type*} [LinearOrder K]

namespace SuperVersion

variable {sv : SuperVersion K V} {op : Option (MergeOperator K V)} {k : K} {seqno : ℕ}

section Point

theorem mem_pointRangeTombstones {rt : RangeTombstone K} : rt ∈ sv.pointRangeTombstones k ↔
    ((∃ t ∈ sv.version.tables, t.keyRange.containsKey k = true ∧ rt ∈ t.rangeTombstones) ∨
      ∃ m ∈ sv.memtablesNewestFirst, rt ∈ m.rangeTombstones) ∧ rt.contains k = true := by
  simp only [pointRangeTombstones, memtablesNewestFirst, mem_filter, mem_append,
    mem_flatMap, mem_cons, mem_reverse, exists_eq_or_imp, and_assoc]
  grind

theorem mem_rangeTombstones {rt : RangeTombstone K} : rt ∈ sv.rangeTombstones ↔
    (∃ t ∈ sv.version.tables, rt ∈ t.rangeTombstones) ∨
      ∃ m ∈ sv.memtablesNewestFirst, rt ∈ m.rangeTombstones := by
  simp only [rangeTombstones, tableRangeTombstones, memtablesNewestFirst, mem_append,
    mem_flatMap, mem_cons, mem_reverse, exists_eq_or_imp]
  grind

theorem pointRangeTombstones_subset : sv.pointRangeTombstones k ⊆ sv.rangeTombstones := by
  intro rt hrt
  apply mem_rangeTombstones.2
  rcases (mem_pointRangeTombstones.1 hrt).1 with ⟨t, ht, -, hin⟩ | h
  · exact Or.inl ⟨t, ht, hin⟩
  · exact Or.inr h

theorem mem_sortedRangeTombstones {t : Table K V} {rt : RangeTombstone K} :
    (rt ∈ t.sortedRangeTombstones.takeWhile fun rt => decide (rt.start ≤ k)) ↔
      rt ∈ t.rangeTombstones ∧ rt.start ≤ k := by
  have : IsTrans (RangeTombstone K) fun a b => a.start ≤ b.start := ⟨fun _ _ _ => le_trans⟩
  have : Std.Total fun a b : RangeTombstone K => a.start ≤ b.start :=
    ⟨fun _ _ => le_total _ _⟩
  rw [Table.sortedRangeTombstones,
    SortedSearch.mem_takeWhile_le (f := RangeTombstone.start) (pairwise_insertionSort _ _)]
  exact and_congr_left' (mem_insertionSort _)

theorem isSuppressedByRangeTombstones_eq {e : InternalValue K V} (hk : e.userKey = k) :
    sv.isSuppressedByRangeTombstones k seqno e.seqno =
      isRtSuppressed (sv.pointRangeTombstones k) seqno e := by
  rw [Bool.eq_iff_iff, isRtSuppressed_iff]
  simp only [isSuppressedByRangeTombstones, Bool.or_eq_true, any_eq_true,
    Memtable.isKeySuppressedByRangeTombstone, mem_sortedRangeTombstones, mem_filter,
    RangeTombstone.shouldSuppress_iff, mem_pointRangeTombstones, RangeTombstone.contains_iff, hk]
  constructor
  · rintro (⟨m, hm, rt, hrt, hv, hc, hs⟩ | ⟨t, ⟨ht, hkey⟩, rt, ⟨hrt, -⟩, hv, hc, hs⟩)
    · exact ⟨rt, ⟨Or.inr ⟨m, hm, hrt⟩, hc⟩, hv, hc, hs⟩
    · exact ⟨rt, ⟨Or.inl ⟨t, ht, hkey, hrt⟩, hc⟩, hv, hc, hs⟩
  · rintro ⟨rt, ⟨⟨t, ht, hkey, hrt⟩ | ⟨m, hm, hrt⟩, hc⟩, hv, -, hs⟩
    · exact Or.inr ⟨t, ⟨ht, hkey⟩, rt, ⟨hrt, hc.1⟩, hv, hc, hs⟩
    · exact Or.inl ⟨m, hm, rt, hrt, hv, hc, hs⟩

theorem getValue_eq (h : sv.Layered) : sv.getValue k seqno =
    (sv.history k seqno).head?.filter fun e =>
      !e.isTombstone && !sv.isSuppressedByRangeTombstones k seqno e.seqno := by
  unfold getValue
  cases hmem : sv.memtablesNewestFirst.findSome? fun m => m.get k seqno with
  | some e =>
    rw [memtable_newest h hmem]
    cases ht : e.isTombstone <;>
      cases hs : sv.isSuppressedByRangeTombstones k seqno e.seqno <;>
      simp [Option.filter_some, ht, hs]
  | none =>
    simp only [findInTables, levels_newest hmem h, Option.filter_filter]

theorem pointSources_eq : sv.pointSources k seqno =
    sv.sources.map fun source => source.filter (InternalValue.matchesKey k seqno) := by
  rw [pointSources, sources, map_append, map_map, map_map]
  congr 1
  apply map_congr_left
  intro run hrun
  obtain ⟨level, hl, hr⟩ := mem_flatten.1 hrun
  simp only [Function.comp_apply, runEntries, filter_flatMap]
  apply SortedSearch.flatMap_filter
  intro t ht hc
  apply filter_eq_nil_iff.2
  intro e he hm
  have hin := containsKey_of_mem (mem_tables hl hr ht) he
  rw [(InternalValue.matchesKey_iff.1 hm).1, hc] at hin
  cases hin

variable (sv op k seqno) in
theorem createRangePoint_head : (sv.createRangePoint op k seqno).head?.map (·.value) =
    (⟨op, sv.pointRangeTombstones k, seqno⟩ : MvccStream K V).readKey (sv.history k seqno) := by
  rw [createRangePoint, pointSources_eq]
  change Option.map _ (List.filter _ (MvccStream.run _ (sv.history k seqno))).head? = _
  cases hh : sv.history k seqno with
  | nil => rfl
  | cons e es =>
    have hkeys : ∀ f ∈ e :: es, f.userKey = k := fun f hf => history_userKey (hh ▸ hf)
    obtain ⟨he, hes⟩ := forall_mem_cons.1 hkeys
    rw [MvccStream.run_of_sameKey fun f hf => (hes f hf).trans he.symm]
    simp only [MvccStream.readKey, filter_cons, filter_nil]
    split_ifs with h1 h2 h2
    · simp_all
    · rfl
    · rfl
    · simp_all

theorem get_eq (h : sv.Layered) : sv.get op k seqno =
    (⟨op, sv.pointRangeTombstones k, seqno⟩ : MvccStream K V).readKey (sv.history k seqno) := by
  rw [get, getValue_eq h]
  cases hh : sv.history k seqno with
  | nil => rfl
  | cons e es =>
    have hk : e.userKey = k := history_userKey (hh ▸ mem_cons_self)
    rw [head?_cons, Option.filter_some, isSuppressedByRangeTombstones_eq hk]
    cases hs : isRtSuppressed (sv.pointRangeTombstones k) seqno e with
    | true =>
      rw [MvccStream.readKey_of_suppressed hs]
      simp
    | false =>
      by_cases hop : e.isMergeOperand = true
      · have ht : e.isTombstone = false := by
          simp only [InternalValue.isMergeOperand, beq_iff_eq] at hop
          simp [InternalValue.isTombstone, ValueType.isTombstone, hop]
        cases op with
        | some m =>
          have hpipe := createRangePoint_head sv (some m) k seqno
          rw [hh] at hpipe
          simpa [ht, hop] using hpipe
        | none =>
          simp [ht, hop, hs, isSuppressedByRangeTombstones_eq hk, MvccStream.readKey,
            MvccStream.emit]
      · rw [Bool.not_eq_true] at hop
        cases ht : e.isTombstone <;>
          simp [hop, hs, ht, MvccStream.readKey, MvccStream.emit_of_not_operand]

end Point

section Scan

theorem isRtSuppressed_of_covered {t : Table K V} (ht : t ∈ sv.version.tables)
    (h : sv.isCovered seqno t = true) {e : InternalValue K V} (he : e ∈ t.entries) :
    isRtSuppressed sv.rangeTombstones seqno e = true := by
  obtain ⟨rt, hrt, hcover⟩ := any_eq_true.1 h
  simp only [Bool.and_eq_true, decide_eq_true_eq, RangeTombstone.visibleAt] at hcover
  obtain ⟨⟨hvis, hmin, hmax⟩, hseq⟩ := hcover
  have hmem := (mem_insertionSort _).1 ((takeWhile_sublist _).subset hrt)
  have hbounds := (sv.tablesWF t ht).bounds e he
  have hle : e.seqno ≤ (t.entries.map (·.seqno)).foldr max ⊥ :=
    le_max_of_le (mem_map_of_mem he) le_rfl
  exact isRtSuppressed_iff.2 ⟨rt, mem_append_left _ hmem, hvis,
    ⟨hmin.trans hbounds.1, hbounds.2.trans_lt hmax⟩, hle.trans_lt hseq⟩

variable (sv) in
theorem scanRuns_subperm : (sv.scanRuns seqno).Subperm sv.version.levels.flatten := by
  obtain ⟨p, hp⟩ : ∃ p : List (Table K V) → Bool,
    p = fun run => run.length == 1 && !run.any (sv.isCovered seqno) := ⟨_, rfl⟩
  have hlong : (sv.version.levels.flatten.filter fun run => decide (1 < run.length)).Sublist
      (sv.version.levels.flatten.filter fun run => !p run) := by
    apply monotone_filter_right
    intro run hrun
    have : run.length ≠ 1 := by have := of_decide_eq_true hrun; omega
    simp [hp, this]
  rw [scanRuns, ← hp]
  exact (hlong.append_left _).subperm.trans (filter_append_perm p _).subperm

/-- The sources the scan opens, before they are cut at the snapshot. -/
def openedSources (sv : SuperVersion K V) (seqno : ℕ) : List (List (InternalValue K V)) :=
  sv.memtablesNewestFirst.map (·.entries) ++ (sv.scanRuns seqno).map runEntries

theorem openedSources_subset : sv.openedSources seqno ⊆ sv.sources := by
  intro source hs
  rcases mem_append.1 hs with hs | hs
  · exact mem_append_left _ hs
  · obtain ⟨run, hrun, rfl⟩ := mem_map.1 hs
    exact mem_append_right _ (mem_map_of_mem ((scanRuns_subperm _).subset hrun))

/-- A scan opens the runs of one table first, so where such a run ties with another it has to be
the newer one. -/
def OpensInOrder (sv : SuperVersion K V) : Prop :=
  sv.version.levels.flatten.Pairwise fun a b => 1 < a.length → b.length = 1 →
    TieFree (runEntries a) (runEntries b)

theorem opensInOrder (h : sv.sources.Pairwise TieFree) : sv.OpensInOrder := by
  have hruns := (pairwise_append.1 h).2.1
  rw [pairwise_map] at hruns
  exact hruns.imp fun hab _ _ => hab

theorem flatMap_openedSources (h : sv.OpensInOrder)
    {g : List (InternalValue K V) → List (InternalValue K V)}
    (hnone : ∀ source, (∀ e ∈ source, isRtSuppressed sv.rangeTombstones seqno e = true) →
      g source = [])
    (hfree : ∀ a b, TieFree a b → g a = [] ∨ g b = []) :
    (sv.openedSources seqno).flatMap g = sv.sources.flatMap g := by
  rw [openedSources, sources, flatMap_append, flatMap_append]
  congr 1
  rw [flatMap_map, flatMap_map]
  apply SortedSearch.flatMap_filter_append
  · intro run _ hsingle
    simp only [Bool.and_eq_true, beq_iff_eq] at hsingle
    simp [hsingle.1]
  · intro run hrun hsingle hlong
    have hlen : run.length ≤ 1 := not_lt.1 (of_decide_eq_false hlong)
    apply hnone
    intro e he
    obtain ⟨t, ht, het⟩ := mem_flatMap.1 he
    obtain ⟨t', rfl⟩ : ∃ t', run = [t'] :=
      length_eq_one_iff.1 (le_antisymm hlen (length_pos_of_mem ht))
    obtain rfl := mem_singleton.1 ht
    -- a run of one table that is not opened is covered
    exact isRtSuppressed_of_covered (mem_flatten.2 ⟨_, hrun, ht⟩) (by simpa using hsingle) het
  · apply h.imp
    intro a b hab ha hb
    simp only [Bool.and_eq_true, beq_iff_eq] at hb
    exact hfree _ _ (hab (of_decide_eq_true ha) hb.1)

def scanned (sv : SuperVersion K V) (k : K) (seqno : ℕ) : List (InternalValue K V) :=
  (KWayMerge.mergeAll InternalValue.le (sv.scanSources seqno)).filter fun e => decide (e.userKey = k)

theorem mergeAll_scanSources_sorted :
    (KWayMerge.mergeAll InternalValue.le (sv.scanSources seqno)).Pairwise
      fun a b => a.le b = true := by
  apply mergeAll_sorted
  intro s hs
  obtain ⟨source, hsource, rfl⟩ := mem_map.1 hs
  exact (source_sorted (openedSources_subset hsource)).sublist filter_sublist

theorem scanned_newestFirst : (sv.scanned k seqno).Pairwise fun a b => b.seqno ≤ a.seqno := by
  apply (mergeAll_scanSources_sorted.sublist filter_sublist).imp_of_mem
  intro a b ha hb hle
  have hak := of_decide_eq_true (mem_filter.1 ha).2
  have hbk := of_decide_eq_true (mem_filter.1 hb).2
  rcases InternalValue.le_iff.1 hle with h | h
  · rw [hak, hbk] at h
    exact absurd h (lt_irrefl k)
  · exact h.2

theorem scanned_filter {p : InternalValue K V → Bool} {s : ℕ} (hp : ∀ x, p x = true → x.seqno = s) :
    (sv.scanned k seqno).filter p = (sv.openedSources seqno).flatMap
      fun source => source.filter fun f => f.matchesKey k seqno && p f := by
  rw [scanned, filter_filter, filter_mergeAll_write, scanSources, flatMap_map]
  · simp only [filter_filter, InternalValue.matchesKey]
    simp only [Bool.and_assoc, Bool.and_comm (p _), openedSources]
  · intro t ht
    obtain ⟨source, hsource, rfl⟩ := mem_map.1 ht
    exact (source_sorted (openedSources_subset hsource)).sublist filter_sublist
  · intro x y hx hy
    simp only [Bool.and_eq_true, decide_eq_true_eq] at hx hy
    exact ⟨hx.2.trans hy.2.symm, (hp x hx.1).trans (hp y hy.1).symm⟩

theorem scanned_unsuppressed (h : sv.OpensInOrder) :
    (sv.scanned k seqno).filter (fun e => !isRtSuppressed sv.rangeTombstones seqno e) =
      (sv.history k seqno).filter fun e => !isRtSuppressed sv.rangeTombstones seqno e := by
  have hsorted : ∀ {l : List (InternalValue K V)}, (l.Pairwise fun a b => b.seqno ≤ a.seqno) →
      ∀ p : InternalValue K V → Bool,
        (l.filter p).Pairwise fun a b => compare b.seqno a.seqno ≠ .gt := by
    intro l hl p
    apply (hl.sublist filter_sublist).imp
    intro a b hab
    rwa [compare_le_iff_le]
  refine Interleaving.eq_of_filter_eq (fun e => e.seqno)
    (hsorted scanned_newestFirst _) (hsorted history_newestFirst _) ?_ ?_
  · intro a b hne hle
    rw [compare_le_iff_le] at hle
    rw [compare_gt_iff_gt]
    omega
  · -- one write of `k`: both sides list the sources that have it
    intro s
    obtain ⟨p, hp⟩ : ∃ p : InternalValue K V → Bool, p = fun e =>
      decide (e.seqno = s) && !isRtSuppressed sv.rangeTombstones seqno e := ⟨_, rfl⟩
    simp only [filter_filter, ← hp]
    have hclass : ∀ x, p x = true → x.seqno = s ∧
        isRtSuppressed sv.rangeTombstones seqno x = false := by
      intro x hx
      simpa [hp] using hx
    rw [scanned_filter fun x hx => (hclass x hx).1, history_filter fun x hx => (hclass x hx).1]
    apply flatMap_openedSources h
    · intro source hsup
      apply filter_eq_nil_iff.2
      intro e he hpe
      rw [Bool.and_eq_true] at hpe
      have := (hclass e hpe.2).2
      rw [hsup e he] at this
      cases this
    · intro a b hab
      by_contra hboth
      push Not at hboth
      obtain ⟨⟨x, hx⟩, y, hy⟩ := hboth.imp (exists_mem_of_ne_nil _) (exists_mem_of_ne_nil _)
      simp only [mem_filter, Bool.and_eq_true, InternalValue.matchesKey_iff] at hx hy
      exact hab x hx.1 y hy.1 (hx.2.1.1.trans hy.2.1.1.symm)
        ((hclass x hx.2.2).1.trans (hclass y hy.2.2).1.symm)

theorem createRange_eq : sv.createRange op seqno =
    ((⟨op, sv.rangeTombstones, seqno⟩ : MvccStream K V).run
      (KWayMerge.mergeAll InternalValue.le (sv.scanSources seqno))).filter
        fun e => !isRtSuppressed sv.rangeTombstones seqno e && !e.isTombstone := by
  obtain ⟨rts, hrts⟩ : ∃ rts, rts = (sv.rangeTombstones.insertionSort
    fun a b => RangeTombstone.le a b = true).destutter (· ≠ ·) := ⟨_, rfl⟩
  have hmem : ∀ rt, rt ∈ rts ↔ rt ∈ sv.rangeTombstones := by
    intro rt
    rw [hrts, SortedSearch.mem_destutter_ne, mem_insertionSort]
  simp only [createRange, ← hrts]
  split
  case isTrue hall =>
    apply filter_congr
    intro e _
    have hnone : isRtSuppressed sv.rangeTombstones seqno e = false := by
      by_contra hsup
      obtain ⟨rt, hrt, hv, -⟩ := isRtSuppressed_iff.1 (Bool.not_eq_false _ ▸ hsup)
      have hinv := all_eq_true.1 hall rt ((hmem rt).2 hrt)
      simp [RangeTombstone.visibleAt, hv] at hinv
    simp [hnone]
  case isFalse =>
    rw [rangeTombstoneFilter_eq ?_ (by simp) ?_, filter_filter]
    · apply filter_congr
      intro e _
      rw [append_nil, isRtSuppressed_congr e fun rt _ _ => hmem rt]
    · rw [hrts]
      have : IsTrans (RangeTombstone K) fun a b => RangeTombstone.le a b = true :=
        ⟨fun _ _ _ => RangeTombstone.le_trans⟩
      have : Std.Total fun a b : RangeTombstone K => RangeTombstone.le a b = true :=
        ⟨RangeTombstone.le_total⟩
      exact ((pairwise_insertionSort _ _).sublist (destutter_sublist _ _)).imp
        RangeTombstone.start_le_of_le
    · exact (MvccStream.run_sorted (mergeAll_scanSources_sorted.imp InternalValue.le_key.1)).sublist
        filter_sublist

theorem createRange_entry (h : sv.OpensInOrder) :
    ((sv.createRange op seqno).find? fun e => decide (e.userKey = k)) =
      (⟨op, sv.rangeTombstones, seqno⟩ : MvccStream K V).readEntry (sv.history k seqno) := by
  obtain ⟨m, hm⟩ : ∃ m : MvccStream K V, m = ⟨op, sv.rangeTombstones, seqno⟩ := ⟨_, rfl⟩
  have hsorted : (KWayMerge.mergeAll InternalValue.le (sv.scanSources seqno)).Pairwise
    fun a b => a.le b = true := mergeAll_scanSources_sorted
  have hscan := MvccStream.run_filter_key (m := m) (k := k) (hsorted.imp InternalValue.le_key.1)
  have hhist := m.readEntry_unsuppressed (sv.history k seqno)
    (MvccStream.suppressed_suffix (fun e he => history_userKey he) history_newestFirst)
  subst hm
  rw [createRange_eq, ← head?_filter, hscan, Option.head?_toList,
    MvccStream.readEntry_filter_key hsorted, hhist]
  exact congrArg _ (scanned_unsuppressed h)

theorem scanValue_eq (h : sv.OpensInOrder) : sv.scanValue op k seqno =
    (⟨op, sv.rangeTombstones, seqno⟩ : MvccStream K V).readKey (sv.history k seqno) := by
  rw [scanValue, createRange_entry h, MvccStream.readKey_eq_readEntry]

end Scan

section Agreement

variable {seen all : List (RangeTombstone K)} {es : List (InternalValue K V)}

/-- A suppressed entry that a read resolves, other than a delete, is suppressed by a tombstone in
`seen`. -/
def Informed (seen all : List (RangeTombstone K)) (seqno : ℕ) (es : List (InternalValue K V)) :
    Prop :=
  ∀ operands x older, es = operands ++ x :: older →
    (∀ y ∈ operands, y.isMergeOperand = true ∧ isRtSuppressed all seqno y = false) →
    x.isTombstone = false → isRtSuppressed all seqno x = true → isRtSuppressed seen seqno x = true

theorem Informed.tail {e : InternalValue K V} (h : Informed seen all seqno (e :: es))
    (hop : e.isMergeOperand = true) (hs : isRtSuppressed all seqno e = false) :
    Informed seen all seqno es := by
  rintro operands x older rfl hops
  exact h (e :: operands) x older rfl (forall_mem_cons.2 ⟨⟨hop, hs⟩, hops⟩)

theorem isRtSuppressed_mono (hsub : seen ⊆ all) {e : InternalValue K V}
    (h : isRtSuppressed all seqno e = false) : isRtSuppressed seen seqno e = false := by
  by_contra hs
  obtain ⟨rt, hrt, hrest⟩ := isRtSuppressed_iff.1 (Bool.not_eq_false _ ▸ hs)
  rw [isRtSuppressed_iff.2 ⟨rt, hsub hrt, hrest⟩] at h
  cases h

variable (op) in
theorem Informed.collect_eq (h : Informed seen all seqno es) (hsub : seen ⊆ all)
    (hk : ∀ e ∈ es, e.userKey = k) :
    (⟨op, seen, seqno⟩ : MvccStream K V).collect k es =
      (⟨op, all, seqno⟩ : MvccStream K V).collect k es := by
  induction es with
  | nil => rfl
  | cons e es ih =>
    obtain ⟨hke, hkes⟩ := forall_mem_cons.1 hk
    simp only [MvccStream.collect, hke, ne_eq, not_true_eq_false, if_false]
    by_cases hs : isRtSuppressed all seqno e = true
    · by_cases ht : e.isTombstone = true
      · -- a delete ends the walk as a suppressed entry does
        simp only [InternalValue.isTombstone, ValueType.isTombstone] at ht
        rw [if_pos hs]
        split_ifs
        · rfl
        · split <;> simp_all
      · rw [if_pos hs, if_pos (h [] e es rfl (by simp) (Bool.not_eq_true _ ▸ ht) hs)]
    · rw [Bool.not_eq_true] at hs
      rw [isRtSuppressed_mono hsub hs, hs]
      simp only [Bool.false_eq_true, if_false]
      cases hv : e.valueType with
      | mergeOperand =>
        have hrest := ih (h.tail (by simp [InternalValue.isMergeOperand, hv]) hs) hkes
        simp only [hrest]
      | _ => rfl

theorem Informed.readKey_eq (h : Informed seen all seqno es) (hsub : seen ⊆ all)
    (hk : ∀ e ∈ es, e.userKey = k) :
    (⟨op, seen, seqno⟩ : MvccStream K V).readKey es =
      (⟨op, all, seqno⟩ : MvccStream K V).readKey es := by
  cases es with
  | nil => rfl
  | cons e es =>
    obtain ⟨hke, hkes⟩ := forall_mem_cons.1 hk
    by_cases hs : isRtSuppressed all seqno e = true
    · rw [MvccStream.readKey_of_suppressed (m := ⟨op, all, seqno⟩) hs]
      by_cases ht : e.isTombstone = true
      · have hop := InternalValue.not_operand_of_isTombstone ht
        simp [MvccStream.readKey, MvccStream.emit_of_not_operand hop, ht]
      · exact MvccStream.readKey_of_suppressed
          (h [] e es rfl (by simp) (Bool.not_eq_true _ ▸ ht) hs)
    · rw [Bool.not_eq_true] at hs
      have hseen := isRtSuppressed_mono hsub hs
      have hemit : (⟨op, seen, seqno⟩ : MvccStream K V).emit e es =
          (⟨op, all, seqno⟩ : MvccStream K V).emit e es := by
        by_cases hop : e.isMergeOperand = true
        · have hc := (h.tail hop hs).collect_eq op hsub hkes
          simp only [MvccStream.emit, MvccStream.resolveMergeForward, hseen, hs, hke, hc]
        · rw [Bool.not_eq_true] at hop
          rw [MvccStream.emit_of_not_operand hop, MvccStream.emit_of_not_operand hop]
      simp only [MvccStream.readKey, MvccStream.isRtSuppressed_emit, hseen, hs, hemit]

theorem collect_live {m : MvccStream K V} {x : InternalValue K V}
    (older : List (InternalValue K V))
    (hk : x.userKey = k) (ht : x.isTombstone = false)
    (hs : isRtSuppressed m.rangeTombstones m.cutoff x = false) :
    (m.collect k (x :: older)).sawIndirectionBase = true ∨
      (m.collect k (x :: older)).baseValue.isSome = true ∨
      (m.collect k (x :: older)).operands ≠ [] := by
  simp only [InternalValue.isTombstone, ValueType.isTombstone] at ht
  simp only [MvccStream.collect, hk, hs, ne_eq, not_true_eq_false, if_false, Bool.false_eq_true]
  cases hv : x.valueType <;> simp_all

/-- An operator that tells a walk apart by its base and the number of its operands finds any entry
that only one of the two resolves. -/
theorem Informed.of_readKey_eq [Nontrivial V] (hsub : seen ⊆ all)
    (hk : ∀ e ∈ es, e.userKey = k)
    (h : ∀ op, (⟨op, seen, seqno⟩ : MvccStream K V).readKey es =
      (⟨op, all, seqno⟩ : MvccStream K V).readKey es) : Informed seen all seqno es := by
  rintro operands x older rfl hops ht hs
  by_contra hseen
  rw [Bool.not_eq_true] at hseen
  have hkx : x.userKey = k := hk x (by simp)
  cases operands with
  | nil =>
    have hnone := h none
    rw [nil_append, MvccStream.readKey_of_suppressed (m := ⟨none, all, seqno⟩) hs] at hnone
    simp [MvccStream.readKey, MvccStream.emit, ht, hseen] at hnone
  | cons o operands =>
    obtain ⟨⟨hop, hos⟩, hops⟩ := forall_mem_cons.1 hops
    have hko : o.userKey = k := hk o (by simp)
    have hkops : ∀ y ∈ operands, y.userKey = k := fun y hy => hk y (by simp [hy])
    obtain ⟨v, hv⟩ := exists_ne o.value
    obtain ⟨op, hmerge⟩ : ∃ op : MergeOperator K V, ∀ base values, op.merge k base values =
      if base.isNone ∧ values.length = operands.length + 1 then v else o.value :=
        ⟨⟨fun _ base values =>
          if base.isNone ∧ values.length = operands.length + 1 then v else o.value⟩,
          fun _ _ => rfl⟩
    -- the full set of tombstones ends the walk at `x` with nothing
    have hfull : (⟨some op, all, seqno⟩ : MvccStream K V).readKey
        (o :: operands ++ x :: older) = some v := by
      rw [cons_append, MvccStream.readKey_operand (m := ⟨some op, all, seqno⟩) rfl hop hos,
        hko, MvccStream.collect_operands fun y hy => ⟨hkops y hy, hops y hy⟩]
      simp [MvccStream.collect, hkx, hs, hmerge]
    -- the consulted ones let it go on
    have hpart : (⟨some op, seen, seqno⟩ : MvccStream K V).readKey
        (o :: operands ++ x :: older) = some o.value := by
      have hlive := collect_live (m := ⟨some op, seen, seqno⟩) older hkx ht hseen
      rw [cons_append, MvccStream.readKey_operand (m := ⟨some op, seen, seqno⟩) rfl hop
        (isRtSuppressed_mono hsub hos), hko,
        MvccStream.collect_operands fun y hy =>
          ⟨hkops y hy, (hops y hy).1, isRtSuppressed_mono hsub (hops y hy).2⟩]
      congr 1
      split_ifs with hsaw
      · rfl
      · have hmore := hlive.resolve_left hsaw
        simp only [hmerge, length_reverse, length_cons, length_append,
          length_map]
        rw [if_neg]
        rintro ⟨hbase, hlen⟩
        rcases hmore with hmore | hmore
        · rw [Option.isNone_iff_eq_none] at hbase
          rw [hbase] at hmore
          cases hmore
        · have := length_pos_iff.2 hmore
          omega
    have heq := h (some op)
    rw [hfull, hpart] at heq
    exact hv (Option.some.inj heq).symm

end Agreement

/-- Each range tombstone that the resolution of `k` needs is in a memtable or in a table whose
key range holds `k`. -/
def Consulted (sv : SuperVersion K V) (k : K) (seqno : ℕ) : Prop :=
  Informed (sv.pointRangeTombstones k) sv.rangeTombstones seqno (sv.history k seqno)

/-- What a tree holds for `k` at a snapshot: its history resolved under all range tombstones. -/
def held (sv : SuperVersion K V) (op : Option (MergeOperator K V)) (k : K) (seqno : ℕ) :
    Option V :=
  (⟨op, sv.rangeTombstones, seqno⟩ : MvccStream K V).readKey (sv.history k seqno)

theorem get_eq_held_iff [Nontrivial V] (h : sv.Layered) (k : K) (seqno : ℕ) :
    (∀ op, sv.get op k seqno = sv.held op k seqno) ↔ sv.Consulted k seqno := by
  have hk : ∀ e ∈ sv.history k seqno, e.userKey = k := fun e he => history_userKey he
  simp only [get_eq h, held]
  exact ⟨fun hread => Informed.of_readKey_eq pointRangeTombstones_subset hk hread,
    fun hc op => Informed.readKey_eq hc pointRangeTombstones_subset hk⟩

/-- The point read of a key agrees with the scan, whatever the merge operator, exactly when it
consults the range tombstones the key needs. -/
theorem get_eq_scanValue_iff [Nontrivial V] (sv : SuperVersion K V) (h : sv.WrittenInOrder)
    (k : K) (seqno : ℕ) :
    (∀ op, sv.get op k seqno = sv.scanValue op k seqno) ↔ sv.Consulted k seqno := by
  simp only [scanValue_eq (opensInOrder h.sources_tieFree)]
  exact get_eq_held_iff h.layered k seqno

section Example

/-- `a` and `c` in L1, with a range delete from `a` to before `e` that is older than both. -/
def upperTable : Table (List Byte) ℕ :=
  ⟨1, ⟨[97], [99]⟩, [⟨[97], 6, .value, 1⟩, ⟨[99], 7, .value, 2⟩], [⟨[97], [101], 5⟩]⟩

/-- `b` and `d` in L2, both under the range delete. Only `b` lies between the keys of L1. -/
def lowerTable : Table (List Byte) ℕ :=
  ⟨2, ⟨[98], [100]⟩, [⟨[98], 4, .value, 3⟩, ⟨[100], 3, .value, 4⟩], []⟩

def wideDelete : SuperVersion (List Byte) ℕ where
  activeMemtable := ⟨[], [], List.Pairwise.nil⟩
  sealedMemtables := []
  version := ⟨[[], [[upperTable]], [[lowerTable]]]⟩
  levelsInOrder := by decide
  tablesWF := by decide
  tablesSorted := by decide

theorem wideDelete_writtenInOrder : wideDelete.WrittenInOrder := by
  constructor
  · unfold NewerThan
    decide
  · exact List.Pairwise.nil

/-- The range delete hides `d` from the scan, and the point read of `d` does not consult it. -/
theorem wideDelete_get_ne_scanValue : wideDelete.WrittenInOrder ∧
    wideDelete.get none [100] 10 = some 4 ∧ wideDelete.scanValue none [100] 10 = none :=
  ⟨wideDelete_writtenInOrder, by decide, by decide⟩

theorem wideDelete_get_eq_scanValue : wideDelete.WrittenInOrder ∧
    wideDelete.get none [98] 10 = wideDelete.scanValue none [98] 10 := by
  refine ⟨wideDelete_writtenInOrder,
    (get_eq_scanValue_iff wideDelete wideDelete_writtenInOrder [98] 10).2 ?_ none⟩
  have hhistory : wideDelete.history [98] 10 = [⟨[98], 4, .value, 3⟩] := by decide
  rintro operands x older h - - -
  rw [hhistory] at h
  cases operands with
  | nil =>
    obtain ⟨rfl, -⟩ := List.cons.inj h
    decide
  | cons o operands => simp at h

end Example

end SuperVersion

end LsmTree
