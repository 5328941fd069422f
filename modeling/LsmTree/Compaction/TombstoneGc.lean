import LsmTree.Compaction.RangeDeletes
import LsmTree.Compaction.Provenance

/-! The range tombstones that a compaction into the last level leaves behind. -/
namespace LsmTree

variable {K V : Type*} [LinearOrder K]

section Survivors

def Version.outsideTombstones (v : Version (Table K V)) (ids : List ℕ) : List (RangeTombstone K) :=
  (v.tables.filter (·.id ∉ ids)).flatMap (·.rangeTombstones)

def suppressed (rts : List (RangeTombstone K)) (e : InternalValue K V) (R : ℕ) : Bool :=
  rts.any fun rt => rt.shouldSuppress e.userKey e.seqno R

namespace CompactionPayload

inductive Survivor (p : CompactionPayload K V) (v : Version (Table K V)) :
    InternalValue K V → Prop where
  | outside {t : Table K V} {e : InternalValue K V} :
      t ∈ v.tables → t.id ∉ p.tableIds → e ∈ t.entries → Survivor p v e
  | written {readers : List (List (InternalValue K V))} {e : InternalValue K V} :
      e ∈ p.output v readers → Survivor p v e

variable {p : CompactionPayload K V} {v : Version (Table K V)}

def keptTombstones (p : CompactionPayload K V) (v : Version (Table K V))
    (rts : List (RangeTombstone K)) : List (RangeTombstone K) :=
  v.rangeTombstonesAfterGc p.tableIds p.mvccGcWatermark (v.isLastLevel p.destLevel) rts

variable {rts : List (RangeTombstone K)} {rt : RangeTombstone K}

theorem keptTombstones_subset (h : rt ∈ p.keptTombstones v rts) : rt ∈ rts := by
  unfold keptTombstones Version.rangeTombstonesAfterGc at h
  split at h
  · exact (List.mem_filter.1 h).1
  · exact h

theorem not_mem_keptTombstones (hrt : rt ∈ rts) (h : rt ∉ p.keptTombstones v rts) :
    v.isLastLevel p.destLevel = true ∧ rt.visibleAt p.mvccGcWatermark = true ∧
      ∀ t ∈ v.tables, t.id ∉ p.tableIds →
        ¬ (rt.start ≤ t.keyRange.max ∧ t.keyRange.min < rt.stop) := by
  unfold keptTombstones Version.rangeTombstonesAfterGc at h
  split at h
  · rename_i hlast
    rw [List.mem_filter, not_and] at h
    have hkeep := h hrt
    simp only [Bool.or_eq_true, Bool.not_eq_true', not_or, Bool.not_eq_false, List.any_eq_true,
      decide_eq_true_eq, not_exists, not_and, List.mem_filter] at hkeep
    refine ⟨hlast, hkeep.1, fun t ht hid hover => ?_⟩
    exact hkeep.2 t ⟨ht, by simpa using hid⟩ hover.1 hover.2
  · exact absurd hrt h

theorem output_unsuppressed {readers : List (List (InternalValue K V))} {e : InternalValue K V}
    (hlast : v.isLastLevel p.destLevel = true) (he : e ∈ p.output v readers)
    (hrt : rt ∈ v.rangeTombstones) (hvis : rt.visibleAt p.mvccGcWatermark = true) (R : ℕ) :
    rt.shouldSuppress e.userKey e.seqno R = false := by
  have hstream : ∀ f ∈ (p.streamConfig v).compactionStream
      (KWayMerge.mergeAll InternalValue.le readers),
      ¬ (rt.contains f.userKey = true ∧ f.seqno < rt.seqno) := by
    rintro f hf ⟨hcontains, hlt⟩
    have hcov := StreamConfig.run_uncovered _ _ f hf
    simp only [StreamConfig.coveredByAppliedTombstone, StreamConfig.applied, streamConfig, hlast,
      if_true, List.any_eq_false, List.mem_filter, Bool.and_eq_true, decide_eq_true_eq] at hcov
    exact hcov rt ⟨hrt, hvis⟩ ⟨hcontains, hlt⟩
  have hnot : ¬ (rt.contains e.userKey = true ∧ e.seqno < rt.seqno) := by
    rw [output, zeroSeqnos, if_pos hlast] at he
    obtain ⟨f, hf, rfl⟩ := List.mem_map.1 he
    by_cases hzero : 0 < f.seqno ∧ f.seqno < p.mvccGcWatermark ∧
        v.rangeTombstones.any (fun rt => rt.contains f.userKey) = false
    · rw [if_pos hzero]
      rintro ⟨hcontains, -⟩
      exact List.any_eq_false.1 hzero.2.2 rt hrt hcontains
    · rw [if_neg hzero]
      exact hstream f hf
  apply Bool.eq_false_iff.2
  intro hs
  obtain ⟨-, hcontains, hlt⟩ := RangeTombstone.shouldSuppress_iff.1 hs
  exact hnot ⟨RangeTombstone.contains_iff.2 hcontains, hlt⟩

end CompactionPayload

section Example

/-- A compaction of table 1 into the last of two levels, at watermark 10. -/
def compactBottom (K V : Type*) : CompactionPayload K V where
  tableIds := [1]
  destLevel := 1
  mvccGcWatermark := 10
  mergeOperator := none
  compactionThreads := 1
  parallelEligible := false
  outputFull := fun _ _ _ => false
  newTableIds := fun _ n => n + 3

def twoDeletes : Version (Table (List Byte) ℕ) :=
  ⟨[[[⟨2, ⟨[6], [6]⟩, [⟨[6], 2, .value, 0⟩], []⟩]],
    [[⟨1, ⟨[1], [7]⟩, [⟨[1], 4, .value, 0⟩], [⟨[1], [3], 9⟩, ⟨[5], [7], 8⟩]⟩]]]⟩

/-- The hull of its deletes in byte order runs from 3 to 8; its marker is at 9. -/
def markerOutside : List (Table ReversedKey ℕ) :=
  (MultiWriter.new (fun _ => 2) (fun _ _ => false) List.length false
    [⟨reversed 9, reversed 8, 5⟩, ⟨reversed 3, reversed 2, 7⟩]).writeAll []

def overMarker : Version (Table ReversedKey ℕ) :=
  ⟨[[markerOutside], [[⟨1, ⟨reversed 9, reversed 6⟩, [⟨reversed 9, 2, .value, 0⟩],
    [⟨reversed 9, reversed 6, 9⟩]⟩]]]⟩

end Example

end Survivors

end LsmTree
