import LsmTree.Read.MvccStream
import LsmTree.Table.WriterOrder
import LsmTree.Theory.KWayMerge

/-! The two read paths of a tree over one super-version. -/
namespace LsmTree

section Search

variable {T K V : Type*} [LinearOrder K] [TableMeta T K]
  (lookup : T → Option (InternalValue K V)) (k : K) (seqno : ℕ)

/-- L0: the newest hit over all runs. Nothing visible is newer than `seqno - 1`. -/
def findInL0 : Option (InternalValue K V) → List (List T) → Option (InternalValue K V)
  | best, [] => best
  | best, run :: runs =>
    match (getForKey run k).bind lookup with
    | none => findInL0 best runs
    | some item =>
      if best.any fun current => decide (item.seqno ≤ current.seqno) then findInL0 best runs
      else if item.seqno + 1 = seqno then some item
      else findInL0 (some item) runs

/-- L1 and deeper: the first run that covers the key decides, hit or miss. -/
def findInCoveringRun : List (List T) → Option (InternalValue K V)
  | [] => none
  | run :: runs =>
    match getForKey run k with
    | some table => lookup table
    | none => findInCoveringRun runs

/-- `find_in_tables`, before its tombstone filter. -/
def findInLevels : List (List (List T)) → Option (InternalValue K V)
  | [] => none
  | l0 :: deeper =>
    (findInL0 lookup k seqno none l0).or (deeper.findSome? (findInCoveringRun lookup k))

def findInTables (v : Version T) : Option (InternalValue K V) :=
  (findInLevels lookup k seqno v.levels).filter fun e => !e.isTombstone

end Search

variable {K V : Type*} [LinearOrder K]

namespace Table

def get (t : Table K V) (k : K) (seqno : ℕ) : Option (InternalValue K V) :=
  t.entries.find? (InternalValue.matchesKey k seqno)

/-- The range tombstones as they are loaded, sorted by start. -/
def sortedRangeTombstones (t : Table K V) : List (RangeTombstone K) :=
  t.rangeTombstones.insertionSort fun a b => a.start ≤ b.start

def highestKvSeqno (t : Table K V) : ℕ := (t.entries.map (·.seqno)).foldr max 0

end Table

def runEntries (run : List (Table K V)) : List (InternalValue K V) :=
  run.flatMap (·.entries)

/-- What a read sees of the tree at one moment. The tables are well formed and the levels in
order. -/
structure SuperVersion (K V : Type*) [LinearOrder K] where
  activeMemtable : Memtable K V
  /-- oldest first -/
  sealedMemtables : List (Memtable K V)
  version : Version (Table K V)
  levelsInOrder : version.LevelsInOrder
  tablesWF : ∀ t ∈ version.tables, t.WF
  tablesSorted : ∀ t ∈ version.tables, t.entries.Pairwise fun a b => InternalValue.le a b = true

namespace SuperVersion

variable (sv : SuperVersion K V) (op : Option (MergeOperator K V)) (k : K) (seqno : ℕ)

def memtablesNewestFirst : List (Memtable K V) := sv.activeMemtable :: sv.sealedMemtables.reverse

def isSuppressedByRangeTombstones (keySeqno : ℕ) : Bool :=
  sv.memtablesNewestFirst.any (fun m => m.isKeySuppressedByRangeTombstone k keySeqno seqno) ||
    (sv.version.tables.filter fun t => t.keyRange.containsKey k).any fun t =>
      (t.sortedRangeTombstones.takeWhile fun rt => decide (rt.start ≤ k)).any fun rt =>
        rt.shouldSuppress k keySeqno seqno

/-- `get_value`: the newest visible entry, unless it is deleted. -/
def getValue : Option (InternalValue K V) :=
  match sv.memtablesNewestFirst.findSome? fun m => m.get k seqno with
  | some e =>
    if e.isTombstone then none
    else if sv.isSuppressedByRangeTombstones k seqno e.seqno then none
    else some e
  | none =>
    (findInTables (fun t : Table K V => t.get k seqno) k seqno sv.version).filter
      fun e => !sv.isSuppressedByRangeTombstones k seqno e.seqno

def pointRangeTombstones : List (RangeTombstone K) :=
  ((sv.version.tables.filter fun t => t.keyRange.containsKey k).flatMap (·.rangeTombstones) ++
    (sv.sealedMemtables.flatMap (·.rangeTombstones) ++ sv.activeMemtable.rangeTombstones)).filter
      fun rt => rt.contains k

/-- The sources of the single-key pipeline, newest first. -/
def pointSources : List (List (InternalValue K V)) :=
  sv.memtablesNewestFirst.map (fun m => m.entries.filter (InternalValue.matchesKey k seqno)) ++
    sv.version.levels.flatten.map fun run =>
      (runEntries (run.filter fun t => t.keyRange.containsKey k)).filter
        (InternalValue.matchesKey k seqno)

def createRangePoint : List (InternalValue K V) :=
  ((⟨op, sv.pointRangeTombstones k, seqno⟩ : MvccStream K V).run
    (KWayMerge.mergeAll InternalValue.le (sv.pointSources k seqno))).filter
      fun e => !e.isTombstone && !isRtSuppressed (sv.pointRangeTombstones k) seqno e

/-- `get`, by `resolve_or_passthrough` -/
def get : Option V :=
  match sv.getValue k seqno with
  | none => none
  | some e =>
    if e.isMergeOperand then
      match op with
      | some _ => (sv.createRangePoint op k seqno).head?.map (·.value)
      | none =>
        if sv.isSuppressedByRangeTombstones k seqno e.seqno then none else some e.value
    else some e.value

def tableRangeTombstones : List (RangeTombstone K) := sv.version.tables.flatMap (·.rangeTombstones)

def rangeTombstones : List (RangeTombstone K) :=
  sv.tableRangeTombstones ++
    (sv.sealedMemtables.flatMap (·.rangeTombstones) ++ sv.activeMemtable.rangeTombstones)

/-- Table skip: a visible tombstone of some table covers the whole table and is newer than
all its entries. -/
def isCovered (t : Table K V) : Bool :=
  ((sv.tableRangeTombstones.insertionSort fun a b => a.start ≤ b.start).takeWhile
    fun rt => decide (rt.start ≤ t.keyRange.min)).any fun rt =>
      rt.visibleAt seqno && decide (rt.start ≤ t.keyRange.min ∧ t.keyRange.max < rt.stop) &&
        decide (t.highestKvSeqno < rt.seqno)

/-- Runs of one table that the scan opens; they come before the longer runs. -/
def scanRuns : List (List (Table K V)) :=
  (sv.version.levels.flatten.filter fun run => run.length == 1 && !run.any (sv.isCovered seqno)) ++
    sv.version.levels.flatten.filter fun run => decide (1 < run.length)

def scanSources : List (List (InternalValue K V)) :=
  (sv.memtablesNewestFirst.map (·.entries) ++ (sv.scanRuns seqno).map runEntries).map
    fun source => source.filter fun e => decide (e.seqno < seqno)

/-- `create_range` over all keys -/
def createRange : List (InternalValue K V) :=
  let live := ((⟨op, sv.rangeTombstones, seqno⟩ : MvccStream K V).run
    (KWayMerge.mergeAll InternalValue.le (sv.scanSources seqno))).filter fun e => !e.isTombstone
  let rts := (sv.rangeTombstones.insertionSort fun a b => RangeTombstone.le a b = true).destutter
    (· ≠ ·)
  if rts.all fun rt => !rt.visibleAt seqno then live
  else rangeTombstoneFilter seqno rts [] live

/-- What a full scan yields for `k`. -/
def scanValue : Option V :=
  ((sv.createRange op seqno).find? fun e => decide (e.userKey = k)).map (·.value)

end SuperVersion

end LsmTree
