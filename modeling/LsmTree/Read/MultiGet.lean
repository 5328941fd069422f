import LsmTree.Read.SuperVersion

/-! Batched point reads. What a table answers is a parameter: one batch of ascending keys, and the
plan of the blocks that a batch needs, each with its own point read. -/
namespace LsmTree

open Function

structure BatchReads (T K V : Type*) where
  batchGet : T → List K → List (Option (InternalValue K V))
  planBlockTasks : T → List (ℕ × K) → List ((K → Option (InternalValue K V)) × List (ℕ × K))

/-- `internal_entries`, by the index of the key -/
abbrev BatchResults (K V : Type*) := ℕ → Option (InternalValue K V)

variable {T K V : Type*} [LinearOrder K] [TableMeta T K]

section Run

/-- The keys at the front that the table `id` covers, and the keys after them. -/
def gatherBatch (run : List T) (skip : ℕ → Bool) (id : ℕ) :
    List (ℕ × K) → List (ℕ × K) × List (ℕ × K)
  | [] => ([], [])
  | x :: xs =>
    if skip x.1 then gatherBatch run skip id xs
    else match getForKey run x.2 with
      | some t =>
        if TableMeta.id t = id then
          let gathered := gatherBatch run skip id xs
          (x :: gathered.1, gathered.2)
        else ([], x :: xs)
      | none => ([], x :: xs)

structure RunResolve (K V : Type*) where
  covered : List ((ℕ × K) × Option (InternalValue K V))
  notCovered : List (ℕ × K)

/-- Every turn takes a key off the list, so its length is enough fuel. -/
def resolveRunBatched (reads : BatchReads T K V) (run : List T) (skip : ℕ → Bool) :
    ℕ → List (ℕ × K) → RunResolve K V
  | 0, _ => ⟨[], []⟩
  | _ + 1, [] => ⟨[], []⟩
  | fuel + 1, x :: xs =>
    if skip x.1 then resolveRunBatched reads run skip fuel xs
    else match getForKey run x.2 with
      | none =>
        let rest := resolveRunBatched reads run skip fuel xs
        { rest with notCovered := x :: rest.notCovered }
      | some t =>
        let gathered := gatherBatch run skip (TableMeta.id t) (x :: xs)
        let rest := resolveRunBatched reads run skip fuel gathered.2
        { rest with
          covered := gathered.1.zip (reads.batchGet t (gathered.1.map (·.2))) ++ rest.covered }

end Run

section Level

structure L0State (K V : Type*) where
  results : BatchResults K V
  atCeiling : ℕ → Bool

def applyL0 (seqno : ℕ) (s : L0State K V) (x : (ℕ × K) × Option (InternalValue K V)) :
    L0State K V :=
  match x.2 with
  | none => s
  | some item =>
    if (s.results x.1.1).any fun current => decide (item.seqno ≤ current.seqno) then s
    else ⟨update s.results x.1.1 (some item),
      if item.seqno + 1 = seqno then update s.atCeiling x.1.1 true else s.atCeiling⟩

def resolveL0Run (reads : BatchReads T K V) (seqno : ℕ) (remaining : List (ℕ × K))
    (s : L0State K V) (run : List T) : L0State K V :=
  (resolveRunBatched reads run s.atCeiling remaining.length remaining).covered.foldl
    (applyL0 seqno) s

structure BatchState (K V : Type*) where
  remaining : List (ℕ × K)
  results : BatchResults K V

/-- L0, serial: all runs, the highest sequence number of each key. -/
def resolveL0 (reads : BatchReads T K V) (seqno : ℕ) (level : List (List T)) (s : BatchState K V) :
    BatchState K V :=
  let resolved := level.foldl (resolveL0Run reads seqno s.remaining) ⟨s.results, fun _ => false⟩
  ⟨s.remaining.filter fun x => (resolved.results x.1).isNone, resolved.results⟩

structure DeepState (K V : Type*) where
  remaining : List (ℕ × K)
  coveredMiss : List (ℕ × K)
  results : BatchResults K V

def applyDeep (s : DeepState K V) (x : (ℕ × K) × Option (InternalValue K V)) : DeepState K V :=
  match x.2 with
  | some item => { s with results := update s.results x.1.1 (some item) }
  | none => { s with coveredMiss := s.coveredMiss ++ [x.1] }

def resolveDeepRun (reads : BatchReads T K V) (s : DeepState K V) (run : List T) :
    DeepState K V :=
  let resolved := resolveRunBatched reads run (fun _ => false) s.remaining.length s.remaining
  { resolved.covered.foldl applyDeep s with remaining := resolved.notCovered }

/-- L1 and deeper, serial: the first run that covers a key decides. -/
def resolveDeep (reads : BatchReads T K V) (level : List (List T)) (s : BatchState K V) :
    BatchState K V :=
  let resolved := level.foldl (resolveDeepRun reads) ⟨s.remaining, [], s.results⟩
  ⟨if resolved.coveredMiss.isEmpty then resolved.remaining
    else (resolved.remaining ++ resolved.coveredMiss).insertionSort fun a b => a.2 ≤ b.2,
    resolved.results⟩

/-- `plan_level_block_tasks`, for one run -/
def planRunBlockTasks (reads : BatchReads T K V) (run : List T) :
    ℕ → List (ℕ × K) → List ((K → Option (InternalValue K V)) × List (ℕ × K))
  | 0, _ => []
  | _ + 1, [] => []
  | fuel + 1, x :: xs =>
    match getForKey run x.2 with
    | none => planRunBlockTasks reads run fuel xs
    | some t =>
      let gathered := gatherBatch run (fun _ => false) (TableMeta.id t) (x :: xs)
      reads.planBlockTasks t gathered.1 ++ planRunBlockTasks reads run fuel gathered.2

def keepHighest (results : BatchResults K V) (x : ℕ × Option (InternalValue K V)) :
    BatchResults K V :=
  match x.2 with
  | none => results
  | some item =>
    if (results x.1).any fun current => decide (item.seqno ≤ current.seqno) then results
    else update results x.1 (some item)

/-- Every level alike: the blocks of all runs, the highest sequence number of each key. -/
def resolveLevelChunked (tasks : List ((K → Option (InternalValue K V)) × List (ℕ × K)))
    (s : BatchState K V) : BatchState K V :=
  let results := (tasks.flatMap fun task => task.2.map fun x => (x.1, task.1 x.2)).foldl
    keepHighest s.results
  ⟨s.remaining.filter fun x => (results x.1).isNone, results⟩

/-- One level. `oversize` says that the cold blocks of the level do not fit the cache and that all
tables can be read block by block. -/
def resolveLevel (reads : BatchReads T K V) (seqno : ℕ) (oversize : Bool) (isL0 : Bool)
    (level : List (List T)) (s : BatchState K V) : BatchState K V :=
  let tasks := level.flatMap fun run =>
    planRunBlockTasks reads run s.remaining.length s.remaining
  if oversize && !tasks.isEmpty then resolveLevelChunked tasks s
  else if isL0 then resolveL0 reads seqno level s
  else resolveDeep reads level s

end Level

/-- `batch_get_from_tables`. The levels may be read in either way. -/
def batchGetFromTables (reads : BatchReads T K V) (seqno : ℕ) (oversize : ℕ → Bool) :
    ℕ → List (List (List T)) → BatchState K V → BatchState K V
  | _, [], s => s
  | i, level :: levels, s =>
    if s.remaining.isEmpty then s
    else batchGetFromTables reads seqno oversize (i + 1) levels
      (resolveLevel reads seqno (oversize i) (i == 0) level s)

section Batch

/-- `dedup_sorted_miss_keys`: the keys to look up, and for every repetition the index of the key
that stands for it. -/
def dedupSortedMissKeys : Option (ℕ × K) → List (ℕ × K) → List (ℕ × K) × List (ℕ × ℕ)
  | _, [] => ([], [])
  | last, x :: xs =>
    match last.filter fun rep => decide (rep.2 = x.2) with
    | some rep =>
      let rest := dedupSortedMissKeys last xs
      (rest.1, (x.1, rep.1) :: rest.2)
    | none =>
      let rest := dedupSortedMissKeys (some x) xs
      (x :: rest.1, rest.2)

def fanOutDuplicates (duplicates : List (ℕ × ℕ)) (results : BatchResults K V) :
    BatchResults K V :=
  duplicates.foldl (fun results d => update results d.1 (results d.2)) results

/-- The first two phases of `multi_get`: the newest visible entry of each key of a batch, deletes
included. -/
def multiGetEntries (memtableGet : K → Option (InternalValue K V)) (reads : BatchReads T K V)
    (levels : List (List (List T))) (seqno : ℕ) (oversize : ℕ → Bool) (keys : List K) :
    BatchResults K V :=
  let found : BatchResults K V := fun i => (keys[i]?).bind memtableGet
  let missing := (keys.zipIdx.filter fun x => (memtableGet x.1).isNone).map fun x => (x.2, x.1)
  let sorted := missing.insertionSort fun a b => a.2 ≤ b.2
  let deduped := dedupSortedMissKeys none sorted
  fanOutDuplicates deduped.2
    (batchGetFromTables reads seqno oversize 0 levels ⟨deduped.1, found⟩).results

end Batch

end LsmTree
