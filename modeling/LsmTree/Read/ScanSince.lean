import LsmTree.Read.SuperVersion
import LsmTree.Theory.Collapse

/-! The change stream of a tree, and a consumer that replays it. -/
namespace LsmTree

inductive ScanSinceEvent (K V : Type*) where
  | insert (key : K) (value : V) (seqno : ℕ)
  | mergeOperand (key : K) (operand : V) (seqno : ℕ)
  | pointTombstone (key : K) (seqno : ℕ)
  | weakTombstone (key : K) (seqno : ℕ)
  | rangeTombstone (startKey endKey : K) (seqno : ℕ)
  deriving DecidableEq, Repr

variable {K V : Type*}

namespace ScanSinceEvent

def seqno : ScanSinceEvent K V → ℕ
  | insert _ _ seqno | mergeOperand _ _ seqno | pointTombstone _ seqno | weakTombstone _ seqno
  | rangeTombstone _ _ seqno => seqno

/-- The start key for a range deletion. -/
def key : ScanSinceEvent K V → K
  | insert key _ _ | mergeOperand key _ _ | pointTombstone key _ | weakTombstone key _
  | rangeTombstone key _ _ => key

def isMergeOperand : ScanSinceEvent K V → Bool
  | mergeOperand .. => true
  | _ => false

def isRangeTombstone : ScanSinceEvent K V → Bool
  | rangeTombstone .. => true
  | _ => false

def deletionFirst (e : ScanSinceEvent K V) : ℕ := if e.isRangeTombstone then 0 else 1

def rank : ScanSinceEvent K V → ℕ
  | rangeTombstone .. => 0
  | insert .. => 1
  | mergeOperand .. => 2
  | pointTombstone .. => 3
  | weakTombstone .. => 4

/-- The payload after the key: the end key of a range deletion, or a value. The two never
meet, for the rank is compared first. -/
def payload [RawKey K] : ScanSinceEvent K V → List Byte ×ₗ WithBot V
  | insert _ value _ => toLex ([], value)
  | mergeOperand _ operand _ => toLex ([], operand)
  | pointTombstone .. | weakTombstone .. => toLex ([], ⊥)
  | rangeTombstone _ endKey _ => toLex (RawKey.toBytes endKey, ⊥)

/-- `grouping_order`: keys by their bytes, values by theirs. -/
def groupingKey [RawKey K] (e : ScanSinceEvent K V) :
    ℕ ×ₗ ℕ ×ₗ List Byte ×ₗ List Byte ×ₗ WithBot V :=
  toLex (e.seqno, toLex (e.rank, toLex (RawKey.toBytes e.key, e.payload)))

/-- The resolver of a standard tree refuses handles into a blob file. -/
def mapEvent (e : InternalValue K V) : Except String (ScanSinceEvent K V) :=
  match e.valueType with
  | .indirection =>
    .error "scan_since_seqno on KV-separated values requires the blob-tree scan path"
  | .value => .ok (insert e.userKey e.value e.seqno)
  | .mergeOperand => .ok (mergeOperand e.userKey e.value e.seqno)
  | .tombstone => .ok (pointTombstone e.userKey e.seqno)
  | .weakTombstone => .ok (weakTombstone e.userKey e.seqno)

def ofRangeTombstone (rt : RangeTombstone K) : ScanSinceEvent K V :=
  rangeTombstone rt.start rt.stop rt.seqno

end ScanSinceEvent

/-- `Run`: the copies of one event in one source. -/
structure EventRun (K V : Type*) where
  event : ScanSinceEvent K V
  /-- `0` is the newest source. -/
  recency : ℕ
  positions : List ℕ

/-- An event of the merged stream, with the source and the position that give it its place. -/
structure PlacedEvent (K V : Type*) where
  event : ScanSinceEvent K V
  recency : ℕ
  position : ℕ
  deriving DecidableEq, Repr

namespace EventRun

def placed (run : EventRun K V) : List (PlacedEvent K V) :=
  run.positions.map fun position => ⟨run.event, run.recency, position⟩

def newest (run : EventRun K V) (others : List (EventRun K V)) : EventRun K V :=
  others.foldl (fun best other => if other.recency < best.recency then other else best) run

def count (run : EventRun K V) (others : List (EventRun K V)) : ℕ :=
  others.foldl (fun count other => max count other.positions.length) run.positions.length

/-- Copies of one idempotent event: the newest source gives the place. -/
def collapse (run : EventRun K V) (others : List (EventRun K V)) : EventRun K V :=
  let newest := run.newest others
  let count := run.count others
  { newest with
    positions := (newest.positions ++ List.replicate (count - newest.positions.length)
      (newest.positions.getLastD 0)).take count }

/-- What the runs of one event leave in the stream. Operands all stay. -/
def emit : List (EventRun K V) → List (PlacedEvent K V)
  | [] => []
  | run :: others =>
    if run.event.isMergeOperand then (run :: others).flatMap placed
    else (run.collapse others).placed

end EventRun

section Merge

variable [DecidableEq K] [RawKey K] [LinearOrder V]

/-- The events of one source, equal ones gathered with their positions. -/
def sourceRuns (source : List (ScanSinceEvent K V)) (recency : ℕ) : List (EventRun K V) :=
  (Collapse.chunkBy (·.1) (source.zipIdx.insertionSort fun a b =>
    a.1.groupingKey ≤ b.1.groupingKey)).map fun chunk =>
      ⟨chunk.1, recency, (chunk.2.map (·.2)).insertionSort (· ≤ ·)⟩

def placedEvents (sources : List (List (ScanSinceEvent K V))) : List (PlacedEvent K V) :=
  (Collapse.chunkBy (·.event) ((sources.zipIdx.flatMap fun s =>
    sourceRuns s.1 s.2).insertionSort fun a b => a.event.groupingKey ≤ b.event.groupingKey)).flatMap
      fun chunk => EventRun.emit chunk.2

/-- Sequence number, range deletions first, oldest source first; a source lists the versions of a
key newest first. -/
def replayLe (a b : PlacedEvent K V) : Bool :=
  decide (a.event.seqno < b.event.seqno ∨ a.event.seqno = b.event.seqno ∧
    (a.event.deletionFirst < b.event.deletionFirst ∨
      a.event.deletionFirst = b.event.deletionFirst ∧
      (b.recency < a.recency ∨ b.recency = a.recency ∧
        if a.event.key = b.event.key then b.position ≤ a.position else a.position ≤ b.position)))

/-- `merge_source_events`, the newest source first -/
def mergeSourceEvents (sources : List (List (ScanSinceEvent K V))) : List (ScanSinceEvent K V) :=
  ((placedEvents sources).insertionSort fun a b => replayLe a b = true).map (·.event)

end Merge

variable [LinearOrder K]

def Memtable.rangeTombstonesSorted (m : Memtable K V) : List (RangeTombstone K) :=
  (m.rangeTombstones.insertionSort fun a b => RangeTombstone.le a b = true).destutter (· ≠ ·)

namespace SuperVersion

variable (sv : SuperVersion K V)

def endSeqno : Option ℕ :=
  (sv.memtablesNewestFirst.flatMap (·.seqnos) ++ sv.version.tables.flatMap (·.seqnos)).max?

/-- Entries and range tombstones of every memtable and table, newest first. -/
def changeSources : List (List (InternalValue K V) × List (RangeTombstone K)) :=
  (sv.memtablesNewestFirst.map fun m => (m.entries, m.rangeTombstonesSorted)) ++
    sv.version.tables.map fun t => (t.entries, t.sortedRangeTombstones)

/-- The events of one source with sequence numbers from `target` to `stop`. -/
def changeEvents (target stop : ℕ)
    (source : List (InternalValue K V) × List (RangeTombstone K)) :
    Except String (List (ScanSinceEvent K V)) := do
  let inWindow := fun seqno => decide (target ≤ seqno ∧ seqno ≤ stop)
  let points ← (source.1.filter fun e => inWindow e.seqno).mapM ScanSinceEvent.mapEvent
  return points ++
    (source.2.filter fun rt => inWindow rt.seqno).map ScanSinceEvent.ofRangeTombstone

variable [RawKey K] [LinearOrder V]

def scanSinceSeqno (target : ℕ) : Except String (List (ScanSinceEvent K V)) :=
  match sv.endSeqno with
  | none => .ok []
  | some stop => do
    let sources ← sv.changeSources.mapM (changeEvents target stop)
    return mergeSourceEvents sources

end SuperVersion

section Replay

variable [Inhabited V]

def applyEvent (m : Memtable K V) : ScanSinceEvent K V → Memtable K V
  | .insert key value seqno => m.insert ⟨key, seqno, .value, value⟩
  | .mergeOperand key operand seqno => m.insert ⟨key, seqno, .mergeOperand, operand⟩
  | .pointTombstone key seqno => m.insert ⟨key, seqno, .tombstone, default⟩
  | .weakTombstone key seqno => m.insert ⟨key, seqno, .weakTombstone, default⟩
  | .rangeTombstone startKey endKey seqno => m.insertRangeTombstone ⟨startKey, endKey, seqno⟩

def replay (events : List (ScanSinceEvent K V)) : SuperVersion K V where
  activeMemtable := events.foldl applyEvent Memtable.empty
  sealedMemtables := []
  version := ⟨[]⟩
  levelsInOrder := ⟨by simp [Version.level], by simp [Version.level]⟩
  tablesWF := by simp [Version.tables]
  tablesSorted := by simp [Version.tables]

end Replay

end LsmTree
