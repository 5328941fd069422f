import LsmTree.Key
import LsmTree.Version.Basic

/-! The leveled strategy: which tables a compaction takes and where it puts them. File sizes and the
scores over them are left open (`Scoring`). -/
namespace LsmTree

section Runs

variable {T K : Type*} [LinearOrder K] [TableMeta T K]

/-- `get_overlapping_cmp`: two binary searches over a sorted run. -/
def getOverlapping (run : List T) (r : KeyRange K) : List T :=
  (run.dropWhile fun t => decide ((keyRange t).max < r.min)).takeWhile
    fun t => decide ((keyRange t).min ≤ r.max)

/-- `get_contained_cmp`: the overlapping tables, trimmed at both ends to contained ones. -/
def getContained (run : List T) (r : KeyRange K) : List T :=
  ((getOverlapping run r).dropWhile fun t => !r.containsRange (keyRange t)).rdropWhile
    fun t => !r.containsRange (keyRange t)

def aggregateRunKeyRange : List T → Option (KeyRange K)
  | [] => none
  | t :: ts => some ⟨(keyRange t).min, (keyRange ((t :: ts).getLast (List.cons_ne_nil t ts))).max⟩

def KeyRange.join (a b : KeyRange K) : KeyRange K :=
  ⟨if b.min < a.min then b.min else a.min, if a.max < b.max then b.max else a.max⟩

/-- `KeyRange::aggregate_cmp`; the hull of nothing is the empty key. -/
def aggregateKeyRanges [RawKey K] : List (KeyRange K) → KeyRange K
  | [] => ⟨RawKey.ofBytes [], RawKey.ofBytes []⟩
  | r :: rs => rs.foldl KeyRange.join r

def levelKeyRange [RawKey K] (runs : List (List T)) : KeyRange K :=
  aggregateKeyRanges (runs.filterMap aggregateRunKeyRange)

/-- `merge_sorted_cmp`: overlapping neighbours become one interval. -/
def mergeSorted : List (KeyRange K) → List (KeyRange K)
  | [] => []
  | r :: rs => go r rs
where
  go (last : KeyRange K) : List (KeyRange K) → List (KeyRange K)
    | [] => [last]
    | r :: rs =>
      if last.max < r.min then last :: go r rs
      else go ⟨last.min, if last.max < r.max then r.max else last.max⟩ rs

end Runs

section Windows

variable {T : Type*}

def windowsOfSize (size : ℕ) (run : List T) : List (List T) :=
  (List.range (run.length + 1 - size)).map fun i => (run.drop i).take size

def growingWindows (run : List T) : List (List T) :=
  (List.range run.length).flatMap fun n => windowsOfSize (n + 1) run

def shrinkingWindows (run : List T) : List (List T) :=
  (List.range run.length).reverse.flatMap fun n => windowsOfSize (n + 1) run

end Windows

structure Strategy where
  l0Threshold : ℕ
  targetSize : ℕ
  multiLevel : Bool

structure Scoring (T : Type*) where
  fileSize : T → ℕ
  needNewL1 : Bool
  highest : ℕ
  reachesOne : Bool
  l1ExceedsOne : Bool

structure CompactionInput where
  tableIds : List ℕ
  destLevel : ℕ
  deriving DecidableEq, Repr

inductive Choice where
  | merge (input : CompactionInput)
  | move (input : CompactionInput)
  | doNothing
  deriving DecidableEq, Repr

namespace Version

variable {T K : Type*} [TableMeta T K] (v : Version T)

def level (i : ℕ) : List (List T) := (v.levels[i]?).getD []

def listIds (runs : List (List T)) : List ℕ := runs.flatten.map TableMeta.id

def levelIsBusy (i : ℕ) (hidden : List ℕ) : Bool :=
  (v.level i).flatten.any fun t => decide (TableMeta.id t ∈ hidden)

end Version

def isBlocked {T K : Type*} [TableMeta T K] (hidden : List ℕ) (ts : List T) : Bool :=
  ts.any fun t => decide (TableMeta.id t ∈ hidden)

namespace Strategy

variable {T K : Type*} [LinearOrder K] [TableMeta T K]

/-- A window of the level that meets nothing in the next one, largest first. -/
def trivialWindow (runs next : List (List T)) (hidden : List ℕ) : Option (List T) :=
  (runs.flatMap shrinkingWindows).find? fun window =>
    !isBlocked hidden window &&
      (next.isEmpty ||
        (aggregateRunKeyRange window).all fun r =>
          next.all fun run => (getOverlapping run r).isEmpty)

/-- A window of the next level with the tables of this level that it contains. -/
def pullIn (sc : Scoring T) (runs : List (List T)) (hidden : List ℕ) (window : List T) :
    Option (List T × List T × ℕ) :=
  if isBlocked hidden window then none
  else
    (aggregateRunKeyRange window).bind fun r =>
      let pulled := runs.flatMap fun run => getContained run r
      let size := (pulled.map sc.fileSize).sum
      if size = 0 then none
      else if isBlocked hidden pulled then none
      else some (window, pulled, size + (window.map sc.fileSize).sum)

/-- `pick_minimal_compaction`; the flag says whether the tables can just be moved. -/
def pickMinimalCompaction (st : Strategy) (sc : Scoring T) (runs next : List (List T))
    (hidden : List ℕ) : Option (List ℕ × Bool) :=
  match trivialWindow runs next hidden with
  | some window => some (window.map TableMeta.id, true)
  | none =>
    if next.isEmpty then none
    else
      let candidates := next.flatMap fun run =>
        (growingWindows run).takeWhile fun window =>
          decide ((window.map sc.fileSize).sum ≤ 50 * st.targetSize)
      ((candidates.filterMap (pullIn sc runs hidden)).argmin (·.2.2)).map
        fun (window, pulled, _) =>
          ((window.map TableMeta.id ++ pulled.map TableMeta.id).dedup, false)

variable [RawKey K] (st : Strategy) (sc : Scoring T) (v : Version T) (hidden : List ℕ)

/-- L0 goes straight to the last level when nothing lies between and nothing overlaps. -/
def moveToLastLevel : Option CompactionInput :=
  let l0 := v.level 0
  let lmax := v.levels.length - 1
  if l0.length = 1 ∧ (List.range lmax).all (fun i => i == 0 || (v.level i).isEmpty) = true ∧
      (levelKeyRange (v.level lmax)).overlaps (levelKeyRange l0) = false then
    some ⟨Version.listIds l0, lmax⟩
  else none

def firstNonEmptyLevel : ℕ :=
  ((List.range v.levels.length).find? fun i => i != 0 && !(v.level i).isEmpty).getD
    (v.levels.length - 1)

def canonicalL1 : ℕ :=
  let first := firstNonEmptyLevel v
  if 1 < first ∧ (v.levels.drop 1).any (!·.isEmpty) = true ∧ sc.needNewL1 = true then first - 1
  else first

/-- The single run of L0 goes to the single run of the first occupied level. -/
def moveToFirstLevel : Option CompactionInput :=
  let l0 := v.level 0
  let target := min (firstNonEmptyLevel v) (canonicalL1 sc v)
  if l0.length = 1 ∧ v.levelIsBusy 0 hidden = false ∧ v.levelIsBusy target hidden = false ∧
      (v.level target).length = 1 ∧
      ((v.level target).flatMap fun run => getOverlapping run (levelKeyRange l0)) = [] then
    some ⟨Version.listIds l0, target⟩
  else none

def intraL0 : Option CompactionInput :=
  let l0 := v.level 0
  if 1 < l0.length ∧ l0.flatten.length < st.l0Threshold ∧ v.levelIsBusy 0 hidden = false then
    some ⟨(Version.listIds l0).dedup, 0⟩
  else none

/-- The L2 tables that an interval of the merged L0 and L1 ranges meets. -/
def multiLevelPullIn (l0 l1 l2 : List (List T)) : List T :=
  let ranges := ((l1 ++ l0).flatten.map (keyRange (K := K))).insertionSort (·.min ≤ ·.min)
  l2.flatMap fun run => (mergeSorted ranges).flatMap fun r => getOverlapping run r

def multiLevelMerge (l1 : ℕ) : Option CompactionInput :=
  let l0 := v.level 0
  let target := v.level l1
  if st.multiLevel = true ∧ sc.l1ExceedsOne = true ∧ l1 + 1 < v.levels.length ∧
      v.levelIsBusy (l1 + 1) hidden = false then
    some ⟨(Version.listIds l0 ++ Version.listIds target ++
      (multiLevelPullIn l0 target (v.level (l1 + 1))).map TableMeta.id).dedup, l1 + 1⟩
  else none

def chooseL0 : Choice :=
  let l0 := v.level 0
  let l1 := canonicalL1 sc v
  if v.levelIsBusy 0 hidden || v.levelIsBusy l1 hidden then .doNothing
  else
    match st.multiLevelMerge sc v hidden l1 with
    | some input => .merge input
    | none =>
      let overlapping := (v.level l1).flatMap fun run => getOverlapping run (levelKeyRange l0)
      let input : CompactionInput :=
        ⟨(Version.listIds l0 ++ overlapping.map TableMeta.id).dedup, l1⟩
      if overlapping = [] ∧ l0.length = 1 then .move input else .merge input

def chooseLevel (i : ℕ) : Choice :=
  match st.pickMinimalCompaction sc (v.level i) (v.level (i + 1)) hidden with
  | none => .doNothing
  | some (ids, trivialMove) =>
    if trivialMove = true ∧ (v.level i).length = 1 then .move ⟨ids, i + 1⟩
    else .merge ⟨ids, i + 1⟩

def choose : Choice :=
  match moveToLastLevel v with
  | some input => .move input
  | none =>
    match moveToFirstLevel sc v hidden with
    | some input => .move input
    | none =>
      match st.intraL0 v hidden with
      | some input => .merge input
      | none =>
        if sc.reachesOne = false then .doNothing
        else if sc.highest = 0 then st.chooseL0 sc v hidden
        else if sc.highest + 1 < v.levels.length then st.chooseLevel sc v hidden sc.highest
        else .doNothing

end Strategy

end LsmTree
