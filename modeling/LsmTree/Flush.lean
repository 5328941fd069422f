import LsmTree.Compaction.Worker
import LsmTree.Memtable

/-! Flushing the sealed memtables into new tables of L0. -/
namespace LsmTree

variable {K V : Type*} [LinearOrder K]

structure FlushOptions (K V : Type*) where
  seqnoThreshold : ℕ
  mergeOperator : Option (MergeOperator K V)
  outputFull : ℕ → List (InternalValue K V) → Bool
  newTableIds : ℕ → ℕ
  registered : List (InternalValue K V) → ℕ := List.length

namespace FlushOptions

variable (o : FlushOptions K V)

/-- A flush evicts no tombstone and applies no range tombstone. -/
def streamConfig : StreamConfig K V := ⟨o.seqnoThreshold, false, o.mergeOperator, []⟩

/-- The sealed memtables are merged oldest first. -/
def items (sealed : List (Memtable K V)) : List (InternalValue K V) :=
  o.streamConfig.compactionStream (KWayMerge.mergeAll InternalValue.le (sealed.map (·.entries)))

def rangeTombstones (sealed : List (Memtable K V)) : List (RangeTombstone K) :=
  ((sealed.flatMap (·.rangeTombstones)).insertionSort
    fun a b => RangeTombstone.le a b = true).destutter (· ≠ ·)

def tables [RawKey K] [Inhabited V] (sealed : List (Memtable K V)) : List (Table K V) :=
  (MultiWriter.new o.newTableIds o.outputFull o.registered false
    (rangeTombstones sealed)).writeAll (o.items sealed)

end FlushOptions

end LsmTree
