import LsmTree.Compaction.Stream
import LsmTree.Table.MultiWriter
import LsmTree.Theory.KWayMerge

/-! A merge compaction: merge, fold, write by one writer or one per key sub-range, and replace the
inputs. Compaction filters and blob relocation are left out. -/
namespace LsmTree

variable {K V : Type*} [LinearOrder K]

structure CompactionPayload (K V : Type*) where
  tableIds : List ℕ
  destLevel : ℕ
  mvccGcWatermark : ℕ
  mergeOperator : Option (MergeOperator K V)
  compactionThreads : ℕ
  /-- No blob relocation, and the inputs reach `subcompaction_min_bytes`. -/
  parallelEligible : Bool
  outputFull : ℕ → ℕ → List (InternalValue K V) → Bool
  newTableIds : ℕ → ℕ → ℕ
  /-- The blocks of a sub-compaction are never compressed on the pool. -/
  registered : List (InternalValue K V) → ℕ := List.length

namespace Version

def rangeTombstones (v : Version (Table K V)) : List (RangeTombstone K) :=
  v.tables.flatMap (·.rangeTombstones)

def isLastLevel (v : Version (Table K V)) (level : ℕ) : Bool := level + 1 == v.levels.length

/-- Merged-input sources: the inputs' span of a longer run is one source. -/
def pickRunIndexes (run : List (Table K V)) (ids : List ℕ) : Option (ℕ × ℕ) :=
  match run.findIdx? (·.id ∈ ids), run.reverse.findIdx? (·.id ∈ ids) with
  | some lo, some fromBack => some (lo, run.length - 1 - fromBack)
  | _, _ => none

/-- One run's sources and the number of tables they read. -/
def runReaders (ids : List ℕ) (run : List (Table K V)) :
    List (List (InternalValue K V)) × ℕ :=
  if run.length > 1 then
    match pickRunIndexes run ids with
    | some (lo, hi) =>
      ([((run.drop lo).take (hi - lo + 1)).flatMap (·.entries)], hi - lo + 1)
    | none => ([], 0)
  else
    let found := run.filter (·.id ∈ ids)
    (found.map (·.entries), found.length)

/-- `create_compaction_stream` declines when its spans do not make up the inputs. -/
def compactionReaders (v : Version (Table K V)) (ids : List ℕ) :
    Option (List (List (InternalValue K V))) :=
  let readers := v.levels.flatten.map (runReaders ids)
  if (readers.map (·.2)).sum = ids.length then some (readers.flatMap (·.1)) else none

structure SubRange (K : Type*) where
  lo : Option K
  hi : Option K

def SubRange.contains (r : SubRange K) (k : K) : Bool :=
  r.lo.all (decide <| · ≤ k) && r.hi.all (decide <| k < ·)

/-- `create_bounded_compaction_stream` -/
def boundedReaders (v : Version (Table K V)) (ids : List ℕ) (r : SubRange K) :
    Option (List (List (InternalValue K V))) :=
  let found := v.tables.filter (·.id ∈ ids)
  if found.length = ids.length then
    some (found.map fun t => t.entries.filter fun e => r.contains e.userKey)
  else none

/-- Sorted, without repetitions, and without the greatest key: a boundary there would leave
an empty range. -/
def boundaryCandidates (keys : List K) : List K :=
  if keys.length < 2 then []
  else ((keys.insertionSort (· ≤ ·)).destutter (· ≠ ·)).dropLast

def subcompactionBoundaries (v : Version (Table K V)) (destLevel maxRanges : ℕ) : List K :=
  if maxRanges < 2 then []
  else
    let keys := boundaryCandidates
      (((v.levels[destLevel]?).getD []).flatten.map (·.keyRange.max))
    let want := min (maxRanges - 1) keys.length
    if want = keys.length then keys
    else
      ((List.range want).filterMap fun i =>
        keys[min ((i + 1) * keys.length / (want + 1)) (keys.length - 1)]?).destutter (· ≠ ·)

def rangesFromBoundaries (lo : Option K) : List K → List (SubRange K)
  | [] => [⟨lo, none⟩]
  | b :: rest => ⟨lo, some b⟩ :: rangesFromBoundaries (some b) rest

/-- `range_tombstones_after_gc`: at the last level a tombstone below the watermark goes when no
table outside the compaction reaches into it. -/
def rangeTombstonesAfterGc (v : Version (Table K V)) (ids : List ℕ) (watermark : ℕ)
    (lastLevel : Bool) (rts : List (RangeTombstone K)) : List (RangeTombstone K) :=
  if lastLevel then
    rts.filter fun rt =>
      !rt.visibleAt watermark ||
        (v.tables.filter (·.id ∉ ids)).any fun t =>
          decide (rt.start ≤ t.keyRange.max ∧ t.keyRange.min < rt.stop)
  else rts

end Version

/-- `BottommostSeqnoZeroer` -/
def zeroSeqnos (enabled : Bool) (watermark : ℕ) (tombstones : List (RangeTombstone K))
    (items : List (InternalValue K V)) : List (InternalValue K V) :=
  if enabled then
    items.map fun e =>
      if 0 < e.seqno ∧ e.seqno < watermark ∧
          tombstones.any (fun rt => rt.contains e.userKey) = false then { e with seqno := 0 }
      else e
  else items

structure MergeJob (K V : Type*) where
  items : List (InternalValue K V)
  rangeTombstones : List (RangeTombstone K)
  outputFull : ℕ → List (InternalValue K V) → Bool
  registered : List (InternalValue K V) → ℕ
  newTableIds : ℕ → ℕ

namespace CompactionPayload

variable [RawKey K] [Inhabited V] (p : CompactionPayload K V) (v : Version (Table K V))

def streamConfig : StreamConfig K V where
  gcSeqnoThreshold := p.mvccGcWatermark
  evictTombstones := v.isLastLevel p.destLevel
  mergeOperator := p.mergeOperator
  rtApply := if v.isLastLevel p.destLevel then v.rangeTombstones else []

def output (readers : List (List (InternalValue K V))) : List (InternalValue K V) :=
  zeroSeqnos (v.isLastLevel p.destLevel) p.mvccGcWatermark v.rangeTombstones
    ((p.streamConfig v).compactionStream (KWayMerge.mergeAll InternalValue.le readers))

/-- The inputs' tombstones, sorted in byte order and without repetitions. -/
def inputRangeTombstones (tables : List (Table K V)) : List (RangeTombstone K) :=
  ((tables.flatMap (·.rangeTombstones)).insertionSort
    fun a b => RangeTombstone.byteLe a b = true).destutter (· ≠ ·)

def boundaries : List K :=
  if 1 < p.compactionThreads ∧ p.parallelEligible = true then
    v.subcompactionBoundaries p.destLevel p.compactionThreads
  else []

def subJob (rts : List (RangeTombstone K)) (r : Version.SubRange K) (i : ℕ) :
    Option (MergeJob K V) := do
  let readers ← v.boundedReaders p.tableIds r
  pure {
    items := p.output v readers
    rangeTombstones := v.rangeTombstonesAfterGc p.tableIds p.mvccGcWatermark
      (v.isLastLevel p.destLevel) rts
    outputFull := p.outputFull i
    registered := List.length
    newTableIds := p.newTableIds i }

/-- The whole compaction by one writer, which keeps every input tombstone. -/
def serialJob (rts : List (RangeTombstone K)) : Option (MergeJob K V) := do
  let readers ← v.compactionReaders p.tableIds
  pure {
    items := p.output v readers
    rangeTombstones := rts
    outputFull := p.outputFull 0
    registered := p.registered
    newTableIds := p.newTableIds 0 }

def jobs : Option (List (MergeJob K V)) := do
  let tables ← p.tableIds.mapM v.getTable
  let rts := inputRangeTombstones tables
  match p.boundaries v with
  | [] => (p.serialJob v rts).map ([·])
  | b :: bs =>
    (Version.rangesFromBoundaries none (b :: bs)).zipIdx.mapM fun (r, i) => p.subJob v rts r i

end CompactionPayload

section Install

variable [RawKey K] [Inhabited V]

def MergeJob.outputs (j : MergeJob K V) : List (Table K V) :=
  (MultiWriter.new j.newTableIds j.outputFull j.registered true j.rangeTombstones).writeAll j.items

/-- `merge_tables`; it declines when an input is missing or its spans do not match. -/
def mergeTables (v : Version (Table K V)) (p : CompactionPayload K V) :
    Option (Version (Table K V)) :=
  (p.jobs v).map fun jobs => v.withMerge p.tableIds (jobs.flatMap (·.outputs)) p.destLevel

end Install

end LsmTree
