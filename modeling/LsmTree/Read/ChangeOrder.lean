import LsmTree.Read.ScanSince

/-! What the merged change stream holds. -/
namespace LsmTree

open List

variable {K V : Type*}

namespace ScanSinceEvent

theorem groupingKey_injective [RawKey K] :
    Function.Injective (groupingKey (K := K) (V := V)) := by
  have hbytes : Function.Injective (RawKey.toBytes : K → List Byte) :=
    Function.LeftInverse.injective RawKey.ofBytes_toBytes
  intro a b h
  have hseqno : a.seqno = b.seqno := congrArg (fun x => (ofLex x).1) h
  have hrank : a.rank = b.rank := congrArg (fun x => (ofLex (ofLex x).2).1) h
  have hkey : a.key = b.key := hbytes (congrArg (fun x => (ofLex (ofLex (ofLex x).2).2).1) h)
  have hpay : a.payload = b.payload := congrArg (fun x => (ofLex (ofLex (ofLex x).2).2).2) h
  cases a <;> cases b <;> simp_all [seqno, rank, key, payload, hbytes.eq_iff]

end ScanSinceEvent

def PlacedEvent.InPlace (sources : List (List (ScanSinceEvent K V))) (x : PlacedEvent K V) : Prop :=
  ∃ source, sources[x.recency]? = some source ∧ source[x.position]? = some x.event

namespace EventRun

def Complete (sources : List (List (ScanSinceEvent K V))) (run : EventRun K V) : Prop :=
  run.positions ≠ [] ∧ ∃ source, sources[run.recency]? = some source ∧
    ∀ p, p ∈ run.positions ↔ source[p]? = some run.event

variable {sources : List (List (ScanSinceEvent K V))} {run : EventRun K V}
  {runs others : List (EventRun K V)} {x : PlacedEvent K V}

theorem mem_placed : x ∈ run.placed ↔
    x.event = run.event ∧ x.recency = run.recency ∧ x.position ∈ run.positions := by
  rw [placed, mem_map]
  constructor
  · rintro ⟨p, hp, rfl⟩
    exact ⟨rfl, rfl, hp⟩
  · rintro ⟨he, hr, hp⟩
    exact ⟨x.position, hp, by rw [← he, ← hr]⟩

theorem Complete.inPlace (h : run.Complete sources) (hx : x ∈ run.placed) : x.InPlace sources := by
  obtain ⟨-, source, hsource, hpos⟩ := h
  obtain ⟨he, hr, hp⟩ := mem_placed.1 hx
  exact ⟨source, by rw [hr, hsource], by rw [(hpos _).1 hp, he]⟩

theorem newest_spec (run : EventRun K V) (others : List (EventRun K V)) :
    run.newest others ∈ run :: others ∧
      ∀ other ∈ run :: others, (run.newest others).recency ≤ other.recency := by
  induction others generalizing run with
  | nil => simp [newest]
  | cons o others ih =>
    rw [newest, foldl_cons]
    by_cases ho : o.recency < run.recency
    · rw [if_pos ho]
      obtain ⟨hmem, hle⟩ := ih o
      refine ⟨mem_cons_of_mem _ hmem, forall_mem_cons.2 ⟨?_, hle⟩⟩
      exact (hle o mem_cons_self).trans ho.le
    · rw [if_neg ho]
      obtain ⟨hmem, hle⟩ := ih run
      obtain ⟨hrun, hle⟩ := forall_mem_cons.1 hle
      refine ⟨?_, forall_mem_cons.2 ⟨hrun, forall_mem_cons.2 ⟨?_, hle⟩⟩⟩
      · exact (mem_cons.1 hmem).elim (fun h => mem_cons.2 (Or.inl h)) fun h =>
          mem_cons_of_mem _ (mem_cons_of_mem _ h)
      · exact hrun.trans (not_lt.1 ho)

theorem length_le_count {other : EventRun K V} (h : other ∈ run :: others) :
    other.positions.length ≤ run.count others := by
  have hfold : ∀ (others : List (EventRun K V)) (n : ℕ),
      (∀ other ∈ others, other.positions.length ≤
        others.foldl (fun count other => max count other.positions.length) n) ∧
      n ≤ others.foldl (fun count other => max count other.positions.length) n := by
    intro others
    induction others with
    | nil => simp
    | cons o others ih =>
      intro n
      obtain ⟨hall, hle⟩ := ih (max n o.positions.length)
      rw [foldl_cons]
      exact ⟨forall_mem_cons.2 ⟨(le_max_right _ _).trans hle, hall⟩,
        (le_max_left _ _).trans hle⟩
  rcases mem_cons.1 h with rfl | h
  · exact (hfold others _).2
  · exact (hfold others _).1 other h

theorem mem_collapse_positions (hne : (run.newest others).positions ≠ []) {p : ℕ} :
    p ∈ (run.collapse others).positions ↔ p ∈ (run.newest others).positions := by
  have hlen := length_le_count (newest_spec run others).1
  have hlast : (run.newest others).positions.getLastD 0 ∈ (run.newest others).positions := by
    rw [getLastD_eq_getLast?, getLast?_eq_getLast_of_ne_nil hne]
    exact getLast_mem hne
  simp only [collapse]
  rw [take_of_length_le (by simp; omega), mem_append, mem_replicate]
  constructor
  · rintro (h | ⟨-, rfl⟩)
    · exact h
    · exact hlast
  · exact Or.inl

theorem mem_collapse_placed (hne : (run.newest others).positions ≠ []) :
    x ∈ (run.collapse others).placed ↔ x ∈ (run.newest others).placed := by
  rw [mem_placed, mem_placed, mem_collapse_positions hne]
  rfl

theorem mem_emit (hne : ∀ run ∈ runs, run.positions ≠ []) (hx : x ∈ emit runs) :
    ∃ run ∈ runs, x ∈ run.placed := by
  cases runs with
  | nil => cases hx
  | cons run others =>
    rw [emit] at hx
    split at hx
    · exact mem_flatMap.1 hx
    · have hnewest := (newest_spec run others).1
      exact ⟨_, hnewest, (mem_collapse_placed (hne _ hnewest)).1 hx⟩

theorem filter_emit {event : ScanSinceEvent K V} (h : ∀ run ∈ runs, run.event = event) :
    (emit runs).filter (·.event.isMergeOperand) =
      (runs.flatMap placed).filter (·.event.isMergeOperand) := by
  cases runs with
  | nil => rfl
  | cons run others =>
    rw [emit]
    split
    · rfl
    case isFalse hop =>
      rw [h run mem_cons_self] at hop
      rw [filter_eq_nil_iff.2, filter_eq_nil_iff.2]
      · intro x hx
        obtain ⟨r, hr, hx⟩ := mem_flatMap.1 hx
        rwa [(mem_placed.1 hx).1, h r hr]
      · intro x hx
        have hnewest := (newest_spec run others).1
        rw [(mem_placed.1 hx).1]
        change ¬ (run.newest others).event.isMergeOperand = true
        rwa [h _ hnewest]

end EventRun

section Merge

variable [DecidableEq K] [RawKey K] [LinearOrder V] {source : List (ScanSinceEvent K V)}
  {sources : List (List (ScanSinceEvent K V))} {run : EventRun K V} {x : PlacedEvent K V}

def allRuns (sources : List (List (ScanSinceEvent K V))) : List (EventRun K V) :=
  sources.zipIdx.flatMap fun s => sourceRuns s.1 s.2

omit [DecidableEq K] in
theorem grouped_sorted {α : Type*} (event : α → ScanSinceEvent K V) (l : List α) :
    (l.insertionSort fun a b => (event a).groupingKey ≤ (event b).groupingKey).Pairwise
      fun a b => (event a).groupingKey ≤ (event b).groupingKey := by
  have : IsTrans α fun a b => (event a).groupingKey ≤ (event b).groupingKey :=
    ⟨fun _ _ _ => le_trans⟩
  have : Std.Total fun a b : α => (event a).groupingKey ≤ (event b).groupingKey :=
    ⟨fun _ _ => le_total _ _⟩
  exact pairwise_insertionSort _ l

theorem sourceRuns_spec {recency : ℕ} (h : run ∈ sourceRuns source recency) :
    run.recency = recency ∧ run.positions ≠ [] ∧ run.positions.Nodup ∧
      ∀ p, p ∈ run.positions ↔ source[p]? = some run.event := by
  obtain ⟨c, hc, rfl⟩ := mem_map.1 h
  obtain ⟨hne, hlabel⟩ := Collapse.mem_chunkBy hc
  have hsub : c.2.Sublist (source.zipIdx.insertionSort fun a b =>
      a.1.groupingKey ≤ b.1.groupingKey) := by
    rw [← Collapse.flatMap_chunkBy (f := fun a : ScanSinceEvent K V × ℕ => a.1)
      (l := source.zipIdx.insertionSort _)]
    exact sublist_flatten_of_mem (mem_map_of_mem hc)
  have hmem : ∀ p, p ∈ c.2.map (·.2) ↔ source[p]? = some c.1 := by
    intro p
    constructor
    · intro hp
      obtain ⟨a, ha, rfl⟩ := mem_map.1 hp
      rw [← hlabel a ha]
      exact mem_zipIdx_iff_getElem?.1 ((mem_insertionSort _).1 (hsub.subset ha))
    · intro hp
      have hin : (c.1, p) ∈ source.zipIdx.insertionSort fun a b =>
          a.1.groupingKey ≤ b.1.groupingKey :=
        (mem_insertionSort _).2 (mem_zipIdx_iff_getElem?.2 hp)
      obtain ⟨d, hd, hdp, hlab⟩ := Collapse.exists_chunkBy (f := (·.1)) hin
      have heq := Collapse.chunkBy_unique ScanSinceEvent.groupingKey_injective
        (grouped_sorted (·.1) source.zipIdx) hd hc hlab
      exact mem_map.2 ⟨(c.1, p), heq ▸ hdp, rfl⟩
  have hnodup : (c.2.map (·.2)).Nodup := by
    apply (hsub.map _).nodup
    apply ((perm_insertionSort _ _).map _).nodup_iff.2
    rw [zipIdx_map_snd]
    exact nodup_range'
  refine ⟨rfl, ?_, ?_, fun p => ?_⟩
  · intro hnil
    have hlen := congrArg List.length hnil
    simp only [length_insertionSort, length_map, length_nil] at hlen
    exact hne (length_eq_zero_iff.1 hlen)
  · exact (perm_insertionSort _ _).nodup_iff.2 hnodup
  · rw [mem_insertionSort, hmem]

theorem mem_allRuns_complete (h : run ∈ allRuns sources) : run.Complete sources := by
  obtain ⟨s, hs, hrun⟩ := mem_flatMap.1 h
  obtain ⟨hr, hne, -, hpos⟩ := sourceRuns_spec hrun
  exact ⟨hne, s.1, by rw [hr, mem_zipIdx_iff_getElem?.1 hs], hpos⟩

theorem PlacedEvent.InPlace.exists_run (h : x.InPlace sources) :
    ∃ run ∈ allRuns sources, x ∈ run.placed := by
  obtain ⟨source, hsource, hx⟩ := h
  have hin : (x.event, x.position) ∈ source.zipIdx.insertionSort fun a b =>
      a.1.groupingKey ≤ b.1.groupingKey :=
    (mem_insertionSort _).2 (mem_zipIdx_iff_getElem?.2 hx)
  obtain ⟨c, hc, hcx, hlab⟩ := Collapse.exists_chunkBy (f := (·.1)) hin
  refine ⟨⟨c.1, x.recency, (c.2.map (·.2)).insertionSort (· ≤ ·)⟩, ?_, ?_⟩
  · exact mem_flatMap.2 ⟨(source, x.recency), mem_zipIdx_iff_getElem?.2 hsource,
      mem_map_of_mem hc⟩
  · refine EventRun.mem_placed.2 ⟨hlab.symm, rfl, ?_⟩
    exact (mem_insertionSort _).2 (mem_map.2 ⟨_, hcx, rfl⟩)

theorem allRuns_placed_nodup : ((allRuns sources).flatMap EventRun.placed).Nodup := by
  rw [nodup_flatMap]
  constructor
  · intro run hrun
    obtain ⟨s, -, hrun⟩ := mem_flatMap.1 hrun
    apply (sourceRuns_spec hrun).2.2.1.map
    intro p q h
    exact congrArg PlacedEvent.position h
  · refine pairwise_flatMap.2 ⟨fun s _ => ?_, ?_⟩
    · apply pairwise_map.2
      apply (Collapse.chunkBy_strict ScanSinceEvent.groupingKey_injective
        (grouped_sorted (·.1) s.1.zipIdx)).imp
      intro c d hlt x hx hx'
      have heq := (EventRun.mem_placed.1 hx).1.symm.trans (EventRun.mem_placed.1 hx').1
      exact hlt.ne (congrArg _ heq)
    · have hindex : sources.zipIdx.Pairwise fun a b => a.2 ≠ b.2 := by
        apply pairwise_map.1
        rw [zipIdx_map_snd]
        exact nodup_range'
      apply hindex.imp
      intro a b hne r hr r' hr' x hx hx'
      apply hne
      rw [← (sourceRuns_spec hr).1, ← (sourceRuns_spec hr').1, ← (EventRun.mem_placed.1 hx).2.1,
        ← (EventRun.mem_placed.1 hx').2.1]

theorem mem_sortedRuns : run ∈ ((allRuns sources).insertionSort fun a b =>
    a.event.groupingKey ≤ b.event.groupingKey) ↔ run ∈ allRuns sources :=
  mem_insertionSort _

theorem mem_placedEvents (h : x ∈ placedEvents sources) : x.InPlace sources := by
  obtain ⟨c, hc, hx⟩ := mem_flatMap.1 h
  have hall : ∀ run ∈ c.2, run.Complete sources := fun run hrun =>
    mem_allRuns_complete (mem_sortedRuns.1 (Collapse.mem_of_mem_chunkBy hc hrun))
  obtain ⟨run, hrun, hx⟩ := EventRun.mem_emit (fun run hrun => (hall run hrun).1) hx
  exact (hall run hrun).inPlace hx

theorem placedEvents_operands :
    ((placedEvents sources).filter (·.event.isMergeOperand)).Perm
      (((allRuns sources).flatMap EventRun.placed).filter (·.event.isMergeOperand)) := by
  have hchunks : (placedEvents sources).filter (·.event.isMergeOperand) =
      ((Collapse.chunkBy (·.event) ((allRuns sources).insertionSort fun a b =>
        a.event.groupingKey ≤ b.event.groupingKey)).flatMap fun c =>
          c.2.flatMap EventRun.placed).filter (·.event.isMergeOperand) := by
    rw [placedEvents, filter_flatMap, filter_flatMap]
    apply flatMap_congr
    intro c hc
    exact EventRun.filter_emit (Collapse.mem_chunkBy hc).2
  rw [hchunks, ← flatMap_assoc, Collapse.flatMap_chunkBy]
  exact ((perm_insertionSort _ _).flatMap_right _).filter _

theorem PlacedEvent.InPlace.covered (h : x.InPlace sources) (hop : x.event.isMergeOperand = false) :
    ∃ y ∈ placedEvents sources, y.event = x.event ∧
      (y.recency < x.recency ∨ y.recency = x.recency ∧ y.position = x.position) := by
  obtain ⟨run, hrun, hx⟩ := h.exists_run
  obtain ⟨he, hr, hp⟩ := EventRun.mem_placed.1 hx
  obtain ⟨c, hc, hrc, hlab⟩ := Collapse.exists_chunkBy (f := fun r : EventRun K V => r.event)
    (mem_sortedRuns.2 hrun)
  have hall : ∀ r ∈ c.2, r.Complete sources ∧ r.event = x.event := by
    intro r hrc'
    have hin := mem_sortedRuns.1 (Collapse.mem_of_mem_chunkBy hc hrc')
    exact ⟨mem_allRuns_complete hin, by rw [(Collapse.mem_chunkBy hc).2 r hrc', hlab, he]⟩
  have hemit : ∀ y ∈ EventRun.emit c.2, y ∈ placedEvents sources := fun y hy =>
    mem_flatMap.2 ⟨c, hc, hy⟩
  obtain ⟨_, runs⟩ := c
  cases runs with
  | nil => cases hrc
  | cons first others =>
    obtain ⟨hmem, hle⟩ := EventRun.newest_spec first others
    obtain ⟨⟨hne, source, hsource, hpos⟩, hevent⟩ := hall _ hmem
    have hstay : ∀ p ∈ (first.newest others).positions,
        ⟨x.event, (first.newest others).recency, p⟩ ∈ placedEvents sources := by
      intro p hp
      apply hemit
      rw [EventRun.emit, if_neg (by rw [(hall first mem_cons_self).2, hop]; simp)]
      exact (EventRun.mem_collapse_placed hne).2 (EventRun.mem_placed.2 ⟨hevent.symm, rfl, hp⟩)
    by_cases hlt : (first.newest others).recency < x.recency
    · obtain ⟨p, hp⟩ := exists_mem_of_ne_nil _ hne
      exact ⟨_, hstay p hp, rfl, Or.inl hlt⟩
    · -- the newest source is that of `x`, and its run has the position of `x`
      have heq : (first.newest others).recency = x.recency :=
        le_antisymm (hr ▸ hle run hrc) (not_lt.1 hlt)
      obtain ⟨source', hsource', hx'⟩ := h
      rw [heq, hsource', Option.some.injEq] at hsource
      subst hsource
      exact ⟨_, hstay x.position ((hpos _).2 (by rw [hx', hevent])), rfl, Or.inr ⟨heq, rfl⟩⟩

end Merge

section ReplayOrder

variable [LinearOrder K] {sources : List (List (ScanSinceEvent K V))} {x y : PlacedEvent K V}

def KeysAscend (source : List (ScanSinceEvent K V)) : Prop :=
  source.Pairwise fun a b => a.deletionFirst = b.deletionFirst → a.key ≤ b.key

def PlacedEvent.slot (x : PlacedEvent K V) : ℕ ×ₗ ℕ ×ₗ ℕᵒᵈ ×ₗ K ×ₗ ℕᵒᵈ :=
  toLex (x.event.seqno, toLex (x.event.deletionFirst, toLex (OrderDual.toDual x.recency,
    toLex (x.event.key, OrderDual.toDual x.position))))

theorem KeysAscend.position_lt {source : List (ScanSinceEvent K V)} (h : KeysAscend source)
    {p q : ℕ} {a b : ScanSinceEvent K V} (ha : source[p]? = some a) (hb : source[q]? = some b)
    (hd : a.deletionFirst = b.deletionFirst) (hlt : p < q) : a.key ≤ b.key := by
  obtain ⟨hp, rfl⟩ := List.getElem?_eq_some_iff.1 ha
  obtain ⟨hq, rfl⟩ := List.getElem?_eq_some_iff.1 hb
  exact List.pairwise_iff_getElem.1 h p q hp hq hlt hd

theorem replayLe_iff (ho : ∀ source ∈ sources, KeysAscend source) (hx : x.InPlace sources)
    (hy : y.InPlace sources) : replayLe x y = true ↔ x.slot ≤ y.slot := by
  rw [replayLe, decide_eq_true_iff]
  simp only [PlacedEvent.slot, Prod.Lex.toLex_le_toLex, OrderDual.toDual_lt_toDual,
    OrderDual.toDual_le_toDual, OrderDual.toDual_inj]
  refine or_congr Iff.rfl (and_congr_right fun _ => or_congr Iff.rfl (and_congr_right fun hd =>
    or_congr Iff.rfl ?_))
  rw [eq_comm (a := y.recency)]
  refine and_congr_right fun hr => ?_
  obtain ⟨source, hsource, hxs⟩ := hx
  obtain ⟨source', hsource', hys⟩ := hy
  rw [← hr, hsource, Option.some.injEq] at hsource'
  subst hsource'
  have hasc := ho source (mem_of_getElem? hsource)
  by_cases hk : x.event.key = y.event.key
  · simp [hk]
  · rw [if_neg hk]
    constructor
    · intro hle
      refine Or.inl (lt_of_le_of_ne (hasc.position_lt hxs hys hd (lt_of_le_of_ne hle ?_)) hk)
      intro he
      rw [he, hys, Option.some.injEq] at hxs
      exact hk (by rw [hxs])
    · rintro (hlt | ⟨he, -⟩)
      · by_contra hgt
        exact absurd hlt (not_lt.2 (hasc.position_lt hys hxs hd.symm (not_le.1 hgt)))
      · exact absurd he hk

variable [RawKey K] [LinearOrder V]

def replayed (sources : List (List (ScanSinceEvent K V))) : List (PlacedEvent K V) :=
  (placedEvents sources).insertionSort fun a b => replayLe a b = true

theorem mem_replayed : x ∈ replayed sources ↔ x ∈ placedEvents sources := mem_insertionSort _

theorem replayed_sorted (ho : ∀ source ∈ sources, KeysAscend source) :
    (replayed sources).Pairwise fun a b => a.slot ≤ b.slot := by
  apply pairwise_map.1
  rw [replayed, map_insertionSort (fun a b => replayLe a b = true) (· ≤ ·)]
  · exact pairwise_insertionSort _ _
  · intro a ha b hb
    exact replayLe_iff ho (mem_placedEvents ha) (mem_placedEvents hb)

end ReplayOrder

end LsmTree
