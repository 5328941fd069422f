import LsmTree.Compaction.DeleteMaterialize
import LsmTree.Compaction.DropRange
import LsmTree.Table.ColumnBatch

/-! Merge on read: a columnar segment is copied as it is, with a bitmap of the rows that its own
range tombstones delete. -/
namespace LsmTree

open Codec RawKey List

variable {K : Type} [LinearOrder K] [RawKey K]

omit [LinearOrder K] in
def InternalValue.typed (e : InternalValue Bytes Bytes) : InternalValue K Bytes :=
  ⟨ofBytes e.userKey, e.seqno, e.valueType, e.value⟩

def ColumnBatch.rows (b : ColumnBatch) : List (InternalValue K Bytes) :=
  (b.columnBatchToEntries.getD []).map InternalValue.typed

structure SegmentIndex (K : Type) where
  /-- the blocks a point read walks -/
  candidates : K → ℕ → List ℕ
  endKey : ℕ → K
  /-- the blocks a range opens -/
  window : OwnedBounds K → List ℕ
  admits : K → ℕ → Bool
  locate : K → Option ℕ

/-- A columnar segment. Bulk ingestion, which alone gives it a sequence number of its own, writes no
range tombstones. -/
structure ColumnarSegment (K : Type) [LinearOrder K] [RawKey K] where
  blocks : List ColumnBatch
  index : SegmentIndex K
  rangeTombstones : List (RangeTombstone K)
  globalSeqno : ℕ
  deleteBitmap : DeleteBitmap
  hasZoneMap : Bool
  /-- encrypted, with page parity, or a restricted view -/
  verbatimUnsafe : Bool
  readable : ∀ b ∈ blocks, ∃ es, b.columnBatchToEntries = some es ∧ es ≠ []
  sorted : (blocks.flatMap (ColumnBatch.rows (K := K))).Pairwise fun a b => a.le b = true
  candidates_asc : ∀ k seqno, (index.candidates k seqno).Pairwise (· < ·)
  candidates_lt : ∀ k seqno, ∀ i ∈ index.candidates k seqno, i < blocks.length
  window_asc : ∀ bounds, (index.window bounds).Pairwise (· < ·)
  window_lt : ∀ bounds, ∀ i ∈ index.window bounds, i < blocks.length
  locate_first : ∀ k i, index.locate k = some i → i < blocks.length ∧
    ∀ b ∈ blocks.take i, ∀ e ∈ b.rows, e.userKey ≠ k
  ingested : rangeTombstones ≠ [] → globalSeqno = 0

section Masking

/-- The loop of the masked readers; a position takes 32 bits. -/
def keepRows {α : Type} (deletes : DeleteBitmap) : ℕ → List α → Option (List α)
  | _, [] => some []
  | pos, row :: rows => do
    guard (pos < 2 ^ 32)
    let rest ← keepRows deletes (pos + 1) rows
    pure (if deletes.contains pos then rest else row :: rest)

def columnarBlockEntries (b : ColumnBatch) : Option (List (InternalValue K Bytes)) := do
  let es ← b.columnBatchIntoEntries
  guard (es ≠ [])
  pure (es.map InternalValue.typed)

def columnarBlockEntriesMasked (b : ColumnBatch) (deletes : DeleteBitmap) (blockStartRow : ℕ) :
    Option (Option (List (InternalValue K Bytes))) := do
  let es ← columnarBlockEntries b
  let kept ← keepRows deletes blockStartRow es
  pure (if kept.isEmpty then none else some kept)

end Masking

namespace ColumnarSegment

variable (s : ColumnarSegment K)

/-- The row count that the zone map has for a block; it is that of the first column of bytes. -/
def zoneRows (b : ColumnBatch) : ℕ :=
  if s.hasZoneMap && b.columns.any (·.typeTag == .bytes) then b.rowCount else 0

def blockStarts : ℕ → List ColumnBatch → List ℕ
  | _, [] => []
  | start, b :: bs => start :: blockStarts ((start + s.zoneRows b) % 2 ^ 32) bs

def deleteBlockStarts : Option (List ℕ) :=
  if s.deleteBitmap.isEmpty then none else some (s.blockStarts 0 s.blocks)

def startRow (i : ℕ) : Option ℕ := s.deleteBlockStarts.bind (·[i]?)

section Range

def loadAndResolve (i : ℕ) : Option (Option (List (InternalValue K Bytes))) := do
  let b ← s.blocks[i]?
  match s.startRow i with
  | some start => columnarBlockEntriesMasked b s.deleteBitmap start
  | none => (columnarBlockEntries b).map some

/-- Whether the bounds admit a key, as the seeks in a block find out. -/
def admitsKey (bounds : OwnedBounds K) (k : K) : Bool :=
  (match bounds.start with
    | .included key => decide (key ≤ k)
    | .excluded key => decide (key < k)
    | .unbounded => true) &&
  match bounds.stop with
    | .included key => decide (k ≤ key)
    | .excluded key => decide (k < key)
    | .unbounded => true

/-- `Table::range`; a block without rows is skipped. -/
def range (bounds : OwnedBounds K) : Option (List (InternalValue K Bytes)) := do
  let loaded ← (s.index.window bounds).mapM s.loadAndResolve
  let es := (loaded.flatMap (·.getD [])).filter fun e => admitsKey bounds e.userKey
  pure (es.map (InternalValue.withGlobalSeqno s.globalSeqno))

def scan (op : Option (MergeOperator K Bytes)) (bounds : OwnedBounds K) (seqno : ℕ) :
    Option (List (InternalValue K Bytes)) :=
  (s.range bounds).map fun es =>
    ((⟨op, s.rangeTombstones, seqno⟩ : MvccStream K Bytes).run
      (es.filter fun e => decide (e.seqno < seqno))).filter
        fun e => !isRtSuppressed s.rangeTombstones seqno e && !e.isTombstone

end Range

section Point

def maskedRow (i row : ℕ) : Option Bool :=
  match s.startRow i with
  | none => some false
  | some start =>
    if start + row < 2 ^ 32 then some (s.deleteBitmap.contains (start + row)) else none

/-- `load_columnar_point_block`: the rows of a key in a block. -/
def loadColumnarPointBlock (i : ℕ) (k : K) : Option (List (InternalValue K Bytes)) := do
  let b ← s.blocks[i]?
  let es ← b.columnBatchMatchEntries (compareOn (ofBytes : Bytes → K)) (toBytes k) (s.maskedRow i)
  pure (es.map InternalValue.typed)

def pointReadBlock (i : ℕ) (k : K) (seqno : ℕ) : Option (Option (InternalValue K Bytes)) :=
  (s.loadColumnarPointBlock i k).map (·.find? (InternalValue.matchesKey k seqno))

/-- The walk of `point_read_inner`, which ends behind a block that ends past the key. -/
def walk (k : K) (seqno : ℕ) : List ℕ → Option (Option (InternalValue K Bytes))
  | [] => some none
  | i :: is => do
    match ← s.pointReadBlock i k seqno with
    | some e => pure (some e)
    | none => if k < s.index.endKey i then pure none else walk k seqno is

def pointRead (k : K) (seqno : ℕ) : Option (Option (InternalValue K Bytes)) := do
  let located ← (match s.index.locate k with
    | some i => s.pointReadBlock i k seqno
    | none => pure none)
  match located with
  | some e => pure (some e)
  | none => s.walk k seqno (s.index.candidates k seqno)

/-- `Table::get`, without the row cache. -/
def get (k : K) (seqno : ℕ) : Option (Option (InternalValue K Bytes)) :=
  if seqno < s.globalSeqno then some none
  else if !s.index.admits k (seqno - s.globalSeqno) then some none
  else (s.pointRead k (seqno - s.globalSeqno)).map
    (·.map (InternalValue.withGlobalSeqno s.globalSeqno))

def read (k : K) (seqno : ℕ) : Option (Option (InternalValue K Bytes)) :=
  (s.get k seqno).map (·.filter fun e => !isRtSuppressed s.rangeTombstones seqno e)

end Point

end ColumnarSegment

inductive DeleteStrategy where
  | copyOnWrite
  | mergeOnRead
  | adaptive (purgeThresholdPercent : Fin 256)
  deriving DecidableEq, Repr

def DeleteStrategy.writesBitmap : DeleteStrategy → Bool
  | .copyOnWrite => false
  | .mergeOnRead | .adaptive _ => true

namespace ColumnarSegment

variable (s : ColumnarSegment K)

/-- `Table::scan`, which does not look at the bitmap. -/
def scanAll : Option (List (InternalValue K Bytes)) := do
  let blocks ← s.blocks.mapM columnarBlockEntries
  pure (blocks.flatten.map (InternalValue.withGlobalSeqno s.globalSeqno))

def inputTombstones : List (RangeTombstone K) :=
  (s.rangeTombstones.insertionSort fun a b => RangeTombstone.byteLe a b = true).destutter (· ≠ ·)

def itemCount : ℕ := (s.blocks.map ColumnBatch.rowCount).sum

def planMergeOnRead (strategy : DeleteStrategy) (watermark : ℕ) : Option (Option DeleteBitmap) :=
  if !strategy.writesBitmap || s.verbatimUnsafe || !s.hasZoneMap || !s.deleteBitmap.isEmpty then
    some none
  else do
    let rows ← s.scanAll
    let bitmap ← buildPositionBitmap (rows.map fun e => (e.userKey, e.seqno)) s.inputTombstones
      watermark
    if bitmap.isEmpty then pure none
    else
      match strategy with
      | .adaptive threshold =>
        if threshold.val ≤ bitmap.len * 100 / max s.itemCount 1 then pure none
        else pure (some bitmap)
      | _ => pure (some bitmap)

/-- `relocate_columnar_with_deletes`, and the table opened on the new file, which has no sequence
number of its own. -/
def relocate (bitmap : DeleteBitmap) : Option (ColumnarSegment K) := do
  guard (s.verbatimUnsafe = false ∧ s.hasZoneMap = true)
  let deletes ← DeleteBitmap.decode bitmap.encode
  pure { s with deleteBitmap := deletes, globalSeqno := 0, ingested := fun _ => rfl }

end ColumnarSegment

namespace ColumnBatch

variable {b : ColumnBatch} {es : List (InternalValue Bytes Bytes)}

omit [LinearOrder K] in
theorem rows_eq (h : b.columnBatchToEntries = some es) :
    b.rows = es.map (InternalValue.typed (K := K)) := by
  rw [rows, h]
  rfl

omit [LinearOrder K] in
theorem rows_length (h : b.columnBatchToEntries = some es) :
    (b.rows (K := K)).length = b.rowCount := by
  rw [rows_eq h, length_map]
  exact (columnBatchToEntries_eq_some h).1

end ColumnBatch

omit [LinearOrder K] in
theorem columnarBlockEntries_eq {b : ColumnBatch} {es : List (InternalValue Bytes Bytes)}
    (h : b.columnBatchToEntries = some es) (hne : es ≠ []) :
    columnarBlockEntries b = some (b.rows (K := K)) := by
  rw [columnarBlockEntries, ColumnBatch.columnBatchIntoEntries_eq, h, ColumnBatch.rows_eq h]
  exact guard_bind_eq_some.2 ⟨hne, rfl⟩

theorem keepRows_eq {α : Type} {deletes : DeleteBitmap} {pos : ℕ} {rows : List α} {live : α → Bool}
    (hpos : pos + rows.length ≤ 2 ^ 32)
    (h : ∀ (i : ℕ) (hi : i < rows.length), deletes.contains (pos + i) = !live rows[i]) :
    keepRows deletes pos rows = some (rows.filter live) := by
  induction rows generalizing pos with
  | nil => rfl
  | cons row rows ih =>
    rw [length_cons] at hpos
    have hrest := @ih (pos + 1) (by omega) fun i hi => by
      have := h (i + 1) (Nat.succ_lt_succ hi)
      rwa [getElem_cons_succ, show pos + (i + 1) = pos + 1 + i by omega] at this
    have hrow : deletes.contains pos = !live row := h 0 (Nat.succ_pos _)
    rw [keepRows, hrest, filter_cons, hrow]
    refine guard_bind_eq_some.2 ⟨by omega, ?_⟩
    cases live row <;> rfl

namespace ColumnarSegment

variable (s : ColumnarSegment K)

def rows : List (InternalValue K Bytes) := s.blocks.flatMap ColumnBatch.rows

def rowsAt (i : ℕ) : List (InternalValue K Bytes) := (s.blocks[i]?.map ColumnBatch.rows).getD []

def rowsBefore (i : ℕ) : ℕ := ((s.blocks.take i).flatMap (ColumnBatch.rows (K := K))).length

variable {s} {i j : ℕ}

theorem exists_block (h : i < s.blocks.length) : ∃ b es, s.blocks[i]? = some b ∧
    b.columnBatchToEntries = some es ∧ es ≠ [] ∧ s.rowsAt i = b.rows := by
  obtain ⟨es, hes, hne⟩ := s.readable _ (getElem_mem h)
  refine ⟨_, es, getElem?_eq_getElem h, hes, hne, ?_⟩
  rw [rowsAt, getElem?_eq_getElem h]
  rfl

theorem rows_split (h : i < s.blocks.length) : s.rows =
    (s.blocks.take i).flatMap ColumnBatch.rows ++
      (s.rowsAt i ++ (s.blocks.drop (i + 1)).flatMap ColumnBatch.rows) := by
  rw [rows, rowsAt, getElem?_eq_getElem h]
  conv_lhs => rw [← take_append_drop i s.blocks, drop_eq_getElem_cons h,
    flatMap_append, flatMap_cons]
  rfl

theorem rows_at (h : i < s.blocks.length) (hj : j < (s.rowsAt i).length) :
    s.rows[s.rowsBefore i + j]? = some (s.rowsAt i)[j] := by
  rw [rows_split h, rowsBefore, getElem?_append_right (Nat.le_add_right _ _),
    Nat.add_sub_cancel_left, getElem?_append_left hj, getElem?_eq_getElem hj]

theorem rowsBefore_add_le (h : i < s.blocks.length) :
    s.rowsBefore i + (s.rowsAt i).length ≤ s.rows.length := by
  rw [rows_split h, rowsBefore, length_append, length_append]
  omega

theorem rowsAt_sorted (i : ℕ) : (s.rowsAt i).Pairwise fun a b => a.le b = true := by
  by_cases h : i < s.blocks.length
  · have hsorted := s.sorted
    rw [← rows, rows_split h] at hsorted
    exact (pairwise_append.1 (pairwise_append.1 hsorted).2.1).1
  · simp [rowsAt, getElem?_eq_none (not_lt.1 h)]

theorem rowsAt_le (hij : i < j) {x y : InternalValue K Bytes} (hx : x ∈ s.rowsAt i)
    (hy : y ∈ s.rowsAt j) : x.le y = true := by
  by_cases hj : j < s.blocks.length
  · have hsorted := (pairwise_flatMap.1 s.sorted).2
    rw [pairwise_iff_getElem] at hsorted
    rw [rowsAt, getElem?_eq_getElem (hij.trans hj)] at hx
    rw [rowsAt, getElem?_eq_getElem hj] at hy
    exact hsorted i j (hij.trans hj) hj hij x hx y hy
  · simp [rowsAt, getElem?_eq_none (not_lt.1 hj)] at hy

section Positions

theorem blockStarts_getElem? (hzone : s.hasZoneMap = true) {bs : List ColumnBatch} {start : ℕ}
    (hread : ∀ b ∈ bs, ∃ es, b.columnBatchToEntries = some es ∧ es ≠ [])
    (htotal : start + (bs.flatMap (ColumnBatch.rows (K := K))).length < 2 ^ 32)
    (hi : i < bs.length) : (s.blockStarts start bs)[i]? =
      some (start + ((bs.take i).flatMap (ColumnBatch.rows (K := K))).length) := by
  induction bs generalizing start i with
  | nil => cases hi
  | cons b bs ih =>
    obtain ⟨⟨es, hes, -⟩, hrest⟩ := forall_mem_cons.1 hread
    have hcount : s.zoneRows b = (b.rows (K := K)).length := by
      obtain ⟨p, hp, -⟩ := Option.bind_eq_some_iff.1 hes
      obtain ⟨hcolumns, -, htag⟩ := ColumnBatch.validateColumnarColumns_eq_some hp
      rw [ColumnBatch.rows_length hes, zoneRows, hzone, hcolumns]
      simp [htag]
    rw [flatMap_cons, length_append] at htotal
    cases i with
    | zero => simp [blockStarts]
    | succ i =>
      have hmod : (start + s.zoneRows b) % 2 ^ 32 = start + (b.rows (K := K)).length := by
        rw [hcount]
        exact Nat.mod_eq_of_lt (by omega)
      rw [blockStarts, getElem?_cons_succ, hmod, ih hrest (by omega) (Nat.lt_of_succ_lt_succ hi)]
      simp [Nat.add_assoc]

end Positions

section Blocks

theorem loadAndResolve_unmasked (hi : i < s.blocks.length) (hstart : s.startRow i = none) :
    s.loadAndResolve i = some (some (s.rowsAt i)) := by
  obtain ⟨b, es, hb, hes, hne, hrows⟩ := exists_block hi
  rw [loadAndResolve, hb, hstart, hrows]
  exact congrArg (Option.map some) (columnarBlockEntries_eq hes hne)

theorem loadAndResolve_masked {start : ℕ} {kept : List (InternalValue K Bytes)}
    (hi : i < s.blocks.length) (hstart : s.startRow i = some start)
    (hkept : keepRows s.deleteBitmap start (s.rowsAt i) = some kept) :
    s.loadAndResolve i = some (if kept.isEmpty then none else some kept) := by
  obtain ⟨b, es, hb, hes, hne, hrows⟩ := exists_block hi
  rw [loadAndResolve, hb, hstart]
  change columnarBlockEntriesMasked b s.deleteBitmap start = _
  rw [columnarBlockEntriesMasked, columnarBlockEntries_eq hes hne, ← hrows]
  exact Option.bind_eq_some_iff.2 ⟨_, rfl, Option.bind_eq_some_iff.2 ⟨_, hkept, rfl⟩⟩

theorem pointReadBlock_eq {live : InternalValue K Bytes → Bool} (hi : i < s.blocks.length)
    (hmask : ∀ (j : ℕ) (hj : j < (s.rowsAt i).length),
      s.maskedRow i j = some (!live (s.rowsAt i)[j])) (k : K) (seqno : ℕ) :
    s.pointReadBlock i k seqno =
      some (((s.rowsAt i).filter live).find? (InternalValue.matchesKey k seqno)) := by
  obtain ⟨b, es, hb, hes, hne, hrows⟩ := exists_block hi
  rw [ColumnBatch.rows_eq hes] at hrows
  have hsorted : es.Pairwise fun x y =>
      compareOn (ofBytes : Bytes → K) x.userKey y.userKey ≠ .gt := by
    have := s.rowsAt_sorted i
    rw [hrows, pairwise_map] at this
    exact this.imp fun hle => compare_le_iff_le.2 (InternalValue.le_key.1 hle)
  have hmasked : ∀ j, j < es.length → s.maskedRow i j =
      some (es[j]?.any fun e => !live e.typed) := by
    intro j hj
    have := hmask j (by rw [hrows, length_map]; exact hj)
    simp only [hrows, getElem_map] at this
    rw [this, getElem?_eq_getElem hj, Option.any_some]
  have hmatch : b.columnBatchMatchEntries (compareOn (ofBytes : Bytes → K)) (toBytes k)
      (s.maskedRow i) = _ := ColumnBatch.columnBatchMatchEntries_eq hes hne hsorted hmasked
  -- the rows of the key that are live, under the comparator
  have hfound : ((es.zipIdx.filter fun x => compareOn (ofBytes : Bytes → K) x.1.userKey (toBytes k)
      == .eq && !es[x.2]?.any fun e => !live e.typed).map (·.1)).map InternalValue.typed =
      (s.rowsAt i).filter fun e => decide (e.userKey = k) && live e := by
    rw [Pointwise.map_fst_filter_zipIdx (p := fun e =>
      decide ((e.typed : InternalValue K Bytes).userKey = k) && live e.typed), hrows, filter_map]
    · rfl
    · intro j hj
      rw [Nat.zero_add, getElem?_eq_getElem hj, Option.any_some, Bool.not_not]
      congr 1
      rw [Bool.eq_iff_iff, beq_iff_eq, decide_eq_true_iff, compareOn, compare_eq_iff_eq,
        ofBytes_toBytes]
      rfl
  rw [pointReadBlock, loadColumnarPointBlock, hb]
  simp only [Option.bind_eq_bind, Option.bind_some, hmatch, Option.pure_def, Option.map_some,
    hfound, find?_filter]
  congr 2
  funext e
  cases hmatches : e.matchesKey k seqno with
  | false => simp
  | true => simp [(InternalValue.matchesKey_iff.1 hmatches).1]

end Blocks

section Reads

/-- The copy of `s` under a bitmap that marks the rows that are not live. -/
structure Masks (s t : ColumnarSegment K) (live : InternalValue K Bytes → Bool) : Prop where
  blocks : t.blocks = s.blocks
  index : t.index = s.index
  rangeTombstones : t.rangeTombstones = s.rangeTombstones
  globalSeqno : s.globalSeqno = 0 ∧ t.globalSeqno = 0
  hasZoneMap : t.hasZoneMap = true
  unmasked : s.deleteBitmap.isEmpty = true
  nonempty : t.deleteBitmap.isEmpty = false
  total : s.rows.length < 2 ^ 32
  marks : ∀ pos e, s.rows[pos]? = some e → t.deleteBitmap.contains pos = !live e
  older : ∀ e f : InternalValue K Bytes, e.userKey = f.userKey → f.seqno ≤ e.seqno →
    live e = false → live f = false

variable {t : ColumnarSegment K} {live : InternalValue K Bytes → Bool} (h : s.Masks t live)
include h

theorem Masks.rowsAt_eq (i : ℕ) : t.rowsAt i = s.rowsAt i := by
  rw [rowsAt, h.blocks, rowsAt]

theorem Masks.startRow (hi : i < s.blocks.length) :
    s.startRow i = none ∧ t.startRow i = some (s.rowsBefore i) := by
  constructor
  · rw [ColumnarSegment.startRow, deleteBlockStarts, if_pos h.unmasked]
    rfl
  · have hstarts : (t.blockStarts 0 t.blocks)[i]? = _ := t.blockStarts_getElem? h.hasZoneMap
      t.readable (by rw [h.blocks, Nat.zero_add]; exact h.total) (h.blocks ▸ hi)
    rw [ColumnarSegment.startRow, deleteBlockStarts, if_neg (by simp [h.nonempty]),
      Option.bind_some, hstarts, h.blocks, Nat.zero_add]
    rfl

theorem Masks.marks_row (hi : i < s.blocks.length) (hj : j < (s.rowsAt i).length) :
    t.deleteBitmap.contains (s.rowsBefore i + j) = !live (s.rowsAt i)[j] :=
  h.marks _ _ (rows_at hi hj)

theorem Masks.loadAndResolve (hi : i < s.blocks.length) :
    s.loadAndResolve i = some (some (s.rowsAt i)) ∧
      ∃ kept, t.loadAndResolve i = some kept ∧ kept.getD [] = (s.rowsAt i).filter live := by
  obtain ⟨hs, ht⟩ := h.startRow hi
  have hkept : keepRows t.deleteBitmap (s.rowsBefore i) (t.rowsAt i) =
      some ((s.rowsAt i).filter live) := by
    rw [h.rowsAt_eq]
    exact keepRows_eq ((rowsBefore_add_le hi).trans h.total.le) fun j hj => h.marks_row hi hj
  refine ⟨loadAndResolve_unmasked hi hs, _, loadAndResolve_masked (h.blocks ▸ hi) ht hkept, ?_⟩
  cases (s.rowsAt i).filter live <;> rfl

theorem Masks.pointReadBlock (hi : i < s.blocks.length) (k : K) (seqno : ℕ) :
    s.pointReadBlock i k seqno = some ((s.rowsAt i).find? (InternalValue.matchesKey k seqno)) ∧
      t.pointReadBlock i k seqno =
        some (((s.rowsAt i).filter live).find? (InternalValue.matchesKey k seqno)) := by
  obtain ⟨hs, ht⟩ := h.startRow hi
  constructor
  · have hall : s.pointReadBlock i k seqno = some (((s.rowsAt i).filter fun _ => true).find? _) :=
      pointReadBlock_eq hi (fun j hj => by rw [maskedRow, hs]; rfl) k seqno
    rwa [filter_true] at hall
  · rw [← h.rowsAt_eq]
    apply pointReadBlock_eq (h.blocks ▸ hi)
    intro j hj
    simp only [h.rowsAt_eq] at hj ⊢
    have hlt : s.rowsBefore i + j < 2 ^ 32 := by
      have := rowsBefore_add_le hi
      have := h.total
      omega
    rw [maskedRow, ht]
    exact (if_pos hlt).trans (congrArg some (h.marks_row hi hj))

variable {k : K} {seqno : ℕ}

omit h [RawKey K] in
theorem find_filter_live (hlive : ∀ e f : InternalValue K Bytes, e.userKey = f.userKey →
      f.seqno ≤ e.seqno → live e = false → live f = false) {es : List (InternalValue K Bytes)}
    (hs : es.Pairwise fun a b => a.le b = true) :
    (es.filter live).find? (InternalValue.matchesKey k seqno) =
      (es.find? (InternalValue.matchesKey k seqno)).filter live := by
  induction es with
  | nil => rfl
  | cons e es ih =>
    obtain ⟨he, hs⟩ := pairwise_cons.1 hs
    by_cases hmatch : e.matchesKey k seqno = true
    · cases hl : live e with
      | true => rw [filter_cons_of_pos hl, find?_cons_of_pos hmatch,
          find?_cons_of_pos hmatch, Option.filter_some, if_pos hl]
      | false =>
        rw [filter_cons_of_neg (by simp [hl]), find?_cons_of_pos hmatch,
          Option.filter_some, if_neg (by simp [hl]), find?_eq_none]
        intro f hf hmatch'
        obtain ⟨hmem, hfl⟩ := mem_filter.1 hf
        have hk := (InternalValue.matchesKey_iff.1 hmatch).1.trans
          (InternalValue.matchesKey_iff.1 hmatch').1.symm
        rcases InternalValue.le_iff.1 (he f hmem) with hlt | ⟨-, hle⟩
        · exact hlt.ne hk
        · rw [hlive e f hk hle hl] at hfl
          cases hfl
    · rw [find?_cons_of_neg hmatch, ← ih hs, filter_cons]
      split
      · exact find?_cons_of_neg hmatch
      · rfl

theorem Masks.find_later (hij : i ≤ j) {e : InternalValue K Bytes}
    (he : (s.rowsAt i).find? (InternalValue.matchesKey k seqno) = some e) (hdead : live e = false) :
    ((s.rowsAt j).filter live).find? (InternalValue.matchesKey k seqno) = none := by
  rw [find_filter_live h.older (rowsAt_sorted j)]
  rcases Nat.eq_or_lt_of_le hij with rfl | hlt
  · rw [he, Option.filter_some, if_neg (by simp [hdead])]
  · rw [Option.filter_eq_none_iff]
    intro f hf
    have hk := (InternalValue.matchesKey_iff.1 (find?_some he)).1.trans
      (InternalValue.matchesKey_iff.1 (find?_some hf)).1.symm
    rcases InternalValue.le_iff.1 (rowsAt_le hlt (mem_of_find?_eq_some he)
      (mem_of_find?_eq_some hf)) with hkey | ⟨-, hle⟩
    · exact absurd hk hkey.ne
    · simp [h.older e f hk hle hdead]

variable {is : List ℕ}

theorem Masks.walk_none (hlt : ∀ i ∈ is, i < s.blocks.length) (hnone : ∀ i ∈ is,
      ((s.rowsAt i).filter live).find? (InternalValue.matchesKey k seqno) = none) :
    t.walk k seqno is = some none := by
  induction is with
  | nil => rfl
  | cons i is ih =>
    obtain ⟨hi, hlt⟩ := forall_mem_cons.1 hlt
    obtain ⟨hno, hnone⟩ := forall_mem_cons.1 hnone
    rw [ColumnarSegment.walk, (h.pointReadBlock hi k seqno).2, hno]
    change (if k < t.index.endKey i then some none else t.walk k seqno is) = some none
    rw [ih hlt hnone, ite_self]

theorem Masks.walk (hasc : is.Pairwise (· < ·)) (hlt : ∀ i ∈ is, i < s.blocks.length) :
    ∃ found, s.walk k seqno is = some found ∧ t.walk k seqno is = some (found.filter live) := by
  induction is with
  | nil => exact ⟨none, rfl, rfl⟩
  | cons i is ih =>
    obtain ⟨hi, hlt⟩ := forall_mem_cons.1 hlt
    obtain ⟨hfirst, hasc⟩ := pairwise_cons.1 hasc
    obtain ⟨hs, ht⟩ := h.pointReadBlock hi k seqno
    rw [ColumnarSegment.walk, ColumnarSegment.walk, hs, ht,
      find_filter_live h.older (rowsAt_sorted i), h.index]
    cases hfind : (s.rowsAt i).find? (InternalValue.matchesKey k seqno) with
    | none =>
      by_cases hend : k < s.index.endKey i
      · exact ⟨none, if_pos hend, if_pos hend⟩
      · obtain ⟨found, hs, ht⟩ := ih hasc hlt
        exact ⟨found, (if_neg hend).trans hs, (if_neg hend).trans ht⟩
    | some e =>
      refine ⟨some e, rfl, ?_⟩
      cases hl : live e with
      | true =>
        rw [Option.filter_some, if_pos hl]
        rfl
      | false =>
        rw [Option.filter_some, if_neg (by simp [hl])]
        change (if k < s.index.endKey i then some none else t.walk k seqno is) = some none
        rw [h.walk_none hlt fun j hj => h.find_later (hfirst j hj).le hfind hl, ite_self]

theorem Masks.pointRead (k : K) (seqno : ℕ) :
    ∃ found, s.pointRead k seqno = some found ∧ t.pointRead k seqno = some (found.filter live) := by
  have hwalk : ∃ found, s.walk k seqno (s.index.candidates k seqno) = some found ∧
      t.walk k seqno (s.index.candidates k seqno) = some (found.filter live) :=
    h.walk (s.candidates_asc k seqno) (s.candidates_lt k seqno)
  rw [ColumnarSegment.pointRead, ColumnarSegment.pointRead, h.index]
  cases hloc : s.index.locate k with
  | none => exact hwalk
  | some i =>
    obtain ⟨hi, hbefore⟩ := s.locate_first k i hloc
    obtain ⟨hs, ht⟩ := h.pointReadBlock hi k seqno
    dsimp only
    rw [hs, ht, find_filter_live h.older (rowsAt_sorted i)]
    cases hfind : (s.rowsAt i).find? (InternalValue.matchesKey k seqno) with
    | none => exact hwalk
    | some e =>
      refine ⟨some e, rfl, ?_⟩
      cases hl : live e with
      | true =>
        rw [Option.filter_some, if_pos hl]
        rfl
      | false =>
        rw [Option.filter_some, if_neg (by simp [hl])]
        apply h.walk_none (s.candidates_lt k seqno)
        intro j hj
        rcases Nat.lt_or_ge j i with hji | hij
        · -- the locator names the first block of the key
          rw [find?_eq_none]
          intro f hf hmatch
          have hjlt := hji.trans hi
          refine hbefore (s.blocks[j]) ?_ f ?_ (InternalValue.matchesKey_iff.1 hmatch).1
          · exact mem_take_iff_getElem.2 ⟨j, by omega, rfl⟩
          · have hmem := (mem_filter.1 hf).1
            rwa [rowsAt, getElem?_eq_getElem hjlt] at hmem
        · exact h.find_later hij hfind hl

omit h [LinearOrder K] [RawKey K] in
theorem mapM_getD {f : ℕ → Option (Option (List (InternalValue K Bytes)))}
    {g : ℕ → List (InternalValue K Bytes)}
    (hf : ∀ i ∈ is, ∃ kept, f i = some kept ∧ kept.getD [] = g i) :
    ∃ loaded, is.mapM f = some loaded ∧ loaded.flatMap (·.getD []) = is.flatMap g := by
  induction is with
  | nil => exact ⟨[], rfl, rfl⟩
  | cons i is ih =>
    obtain ⟨⟨kept, hkept, hg⟩, hf⟩ := forall_mem_cons.1 hf
    obtain ⟨loaded, hloaded, hrest⟩ := ih hf
    refine ⟨kept :: loaded, ?_, ?_⟩
    · rw [mapM_cons, hkept, hloaded]
      rfl
    · rw [flatMap_cons, flatMap_cons, hg, hrest]

omit h [RawKey K] [LinearOrder K] in
theorem withGlobalSeqno_zero {V : Type} (es : List (InternalValue K V)) :
    es.map (InternalValue.withGlobalSeqno 0) = es := by
  have hid : (InternalValue.withGlobalSeqno 0 : InternalValue K V → _) = id := rfl
  rw [hid, map_id]

theorem Masks.range (bounds : OwnedBounds K) : ∃ es, es.Pairwise (fun a b => a.le b = true) ∧
    s.range bounds = some es ∧ t.range bounds = some (es.filter live) := by
  have hlt := s.window_lt bounds
  obtain ⟨loaded, hload, hrows⟩ := mapM_getD (g := s.rowsAt) fun i hi =>
    ⟨_, (h.loadAndResolve (hlt i hi)).1, rfl⟩
  obtain ⟨loaded', hload', hrows'⟩ := mapM_getD fun i hi => (h.loadAndResolve (hlt i hi)).2
  refine ⟨((s.index.window bounds).flatMap s.rowsAt).filter fun e => admitsKey bounds e.userKey,
    ?_, ?_, ?_⟩
  · apply List.Pairwise.filter
    refine pairwise_flatMap.2 ⟨fun i _ => rowsAt_sorted i, (s.window_asc bounds).imp ?_⟩
    intro i j hij x hx y hy
    exact rowsAt_le hij hx hy
  · rw [ColumnarSegment.range, hload, h.globalSeqno.1]
    simp only [Option.bind_eq_bind, Option.bind_some, hrows, withGlobalSeqno_zero]
    rfl
  · rw [ColumnarSegment.range, h.index, hload', h.globalSeqno.2]
    simp only [Option.bind_eq_bind, Option.bind_some, hrows', withGlobalSeqno_zero,
      ← filter_flatMap]
    rw [filter_comm]
    rfl

theorem Masks.reads {R : ℕ}
    (hR : ∀ e, live e = false → isRtSuppressed s.rangeTombstones R e = true) :
    (∀ k, t.read k R = s.read k R) ∧ ∀ op bounds, t.scan op bounds R = s.scan op bounds R := by
  constructor
  · intro k
    obtain ⟨found, hs, ht⟩ := h.pointRead k R
    simp only [read, get, h.globalSeqno, h.index, h.rangeTombstones, Nat.sub_zero, hs, ht]
    split_ifs
    · rfl
    · rfl
    · cases found with
      | none => rfl
      | some e =>
        cases hl : live e with
        | true => rw [Option.filter_some, if_pos hl]
        | false =>
          have hsup : isRtSuppressed s.rangeTombstones R (e.withGlobalSeqno 0) = true := hR e hl
          simp only [Option.filter_some, hl, Bool.false_eq_true, if_false, Option.map_some,
            Option.map_none, Option.filter_none, hsup, Bool.not_true]
  · intro op bounds
    obtain ⟨es, hes, hs, ht⟩ := h.range bounds
    rw [scan, scan, hs, ht, h.rangeTombstones, Option.map_some, Option.map_some, filter_comm]
    exact congrArg some (MvccStream.run_filter_live (m := ⟨op, s.rangeTombstones, R⟩)
      (hes.filter _) hR)

end Reads

section Plan

variable {bitmap : DeleteBitmap} {w : ℕ}

theorem scanAll_eq : s.scanAll = some (s.rows.map (InternalValue.withGlobalSeqno s.globalSeqno)) := by
  have hblocks : s.blocks.mapM columnarBlockEntries =
      some (s.blocks.map (ColumnBatch.rows (K := K))) := by
    apply Pointwise.mapM_of_forall₂
    rw [List.forall₂_map_right_iff, List.forall₂_same]
    intro b hb
    obtain ⟨es, hes, hne⟩ := s.readable b hb
    exact columnarBlockEntries_eq hes hne
  rw [scanAll, hblocks]
  rfl

theorem positionBitmap_spec (s : ColumnarSegment K) (rts : List (RangeTombstone K))
    (hw : w ≤ seqnoMax) :
    let bitmap := buildPositionBitmap (s.rows.map fun e => (e.userKey, e.seqno)) rts w
    (bitmap.isSome ↔ s.rows.length < 2 ^ 32) ∧ ∀ deletes ∈ bitmap, ∀ pos,
      deletes.contains pos = s.rows[pos]?.any (isRtSuppressed rts w) := by
  have hsorted : (s.rows.map fun e => (e.userKey, e.seqno)).Pairwise fun a b => a.1 ≤ b.1 :=
    pairwise_map.2 (s.sorted.imp InternalValue.le_key.1)
  obtain ⟨hsome, hnone⟩ := buildPositionBitmap_spec hsorted rts hw
  rw [length_map] at hsome hnone
  by_cases hlen : s.rows.length < 2 ^ 32
  · obtain ⟨deletes, hbuild, hcontains⟩ := hsome hlen
    refine ⟨iff_of_true (by rw [hbuild]; rfl) hlen, ?_⟩
    rintro d hd pos
    obtain rfl : deletes = d := Option.some.inj (hbuild.symm.trans hd)
    rw [hcontains, getElem?_map, Option.any_map]
    rfl
  · have hbuild := hnone (not_lt.1 hlen)
    exact ⟨iff_of_false (by simp [hbuild]) hlen, by simp [hbuild]⟩

theorem planMergeOnRead_some {strategy : DeleteStrategy}
    (h : s.planMergeOnRead strategy w = some (some bitmap)) :
    s.verbatimUnsafe = false ∧ s.hasZoneMap = true ∧ s.deleteBitmap.isEmpty = true ∧
      bitmap.isEmpty = false ∧ ∃ rows, s.scanAll = some rows ∧
        buildPositionBitmap (rows.map fun e => (e.userKey, e.seqno)) s.inputTombstones w =
          some bitmap := by
  rw [planMergeOnRead] at h
  split at h
  · cases h
  · rename_i hguard
    simp only [Bool.or_eq_true, Bool.not_eq_true', not_or, Bool.not_eq_true, Bool.not_eq_false]
      at hguard
    obtain ⟨rows, hrows, h⟩ := Option.bind_eq_some_iff.1 h
    obtain ⟨built, hbuilt, h⟩ := Option.bind_eq_some_iff.1 h
    have hplan : built.isEmpty = false ∧ built = bitmap := by
      split at h
      · cases h
      · rename_i hempty
        refine ⟨Bool.not_eq_true _ ▸ hempty, ?_⟩
        split at h
        · split at h
          · cases h
          · exact Option.some.inj (Option.some.inj h)
        · exact Option.some.inj (Option.some.inj h)
    obtain ⟨hempty, rfl⟩ := hplan
    exact ⟨hguard.1.1.2, hguard.1.2, hguard.2, hempty, rows, hrows, hbuilt⟩

theorem isRtSuppressed_inputTombstones (e : InternalValue K Bytes) :
    isRtSuppressed s.inputTombstones w e = isRtSuppressed s.rangeTombstones w e := by
  apply isRtSuppressed_congr
  intro rt _ _
  rw [inputTombstones, SortedSearch.mem_destutter_ne, mem_insertionSort]

theorem relocate_masks {strategy : DeleteStrategy}
    (h : s.planMergeOnRead strategy w = some (some bitmap)) (hw : w ≤ seqnoMax) :
    ∃ t, s.relocate bitmap = some t ∧
      s.Masks t fun e => !isRtSuppressed s.rangeTombstones w e := by
  obtain ⟨hsafe, hzone, hunmasked, hnonempty, rows, hrows, hbuilt⟩ := planMergeOnRead_some h
  obtain rfl := Option.some.inj (scanAll_eq.symm.trans hrows)
  have hglobal : s.globalSeqno = 0 := by
    -- a marked row has a tombstone over it, so the segment was not ingested
    by_contra hne
    have hnone : s.inputTombstones = [] := by
      rw [inputTombstones, not_not.1 fun hrts => hne (s.ingested hrts)]
      rfl
    obtain ⟨pos, hpos⟩ := DeleteBitmap.exists_contains hnonempty
    rw [hnone, map_map] at hbuilt
    have hsorted : (s.rows.map ((fun e => (e.userKey, e.seqno)) ∘
        InternalValue.withGlobalSeqno s.globalSeqno)).Pairwise fun a b => a.1 ≤ b.1 :=
      pairwise_map.2 (s.sorted.imp InternalValue.le_key.1)
    obtain ⟨hsome, hlong⟩ := buildPositionBitmap_spec hsorted [] hw
    by_cases hlen : (s.rows.map ((fun e => (e.userKey, e.seqno)) ∘
        InternalValue.withGlobalSeqno s.globalSeqno)).length < 2 ^ 32
    · obtain ⟨built, hbuilt', hcontains⟩ := hsome hlen
      obtain rfl := Option.some.inj (hbuilt.symm.trans hbuilt')
      simp [hcontains] at hpos
    · simp [hlong (not_lt.1 hlen)] at hbuilt
  rw [hglobal, withGlobalSeqno_zero] at hbuilt
  obtain ⟨hsome, hcontains⟩ := s.positionBitmap_spec s.inputTombstones hw
  have hlen := hsome.1 (by rw [hbuilt]; rfl)
  have hrelocate : s.relocate bitmap = some
      { s with deleteBitmap := bitmap, globalSeqno := 0, ingested := fun _ => rfl } := by
    rw [relocate, DeleteBitmap.decode_encode, guard_eq_some ⟨hsafe, hzone⟩]
    rfl
  refine ⟨_, hrelocate, rfl, rfl, rfl, ⟨hglobal, rfl⟩, hzone, hunmasked, hnonempty, hlen, ?_, ?_⟩
  · intro pos e he
    rw [hcontains bitmap hbuilt, he, Option.any_some, isRtSuppressed_inputTombstones, Bool.not_not]
  · intro e f hk hle hdead
    rw [Bool.not_eq_false'] at hdead ⊢
    exact isRtSuppressed_older hdead hk.symm hle

end Plan

/-- The positions a bitmap marks, and the reads of a segment that was relocated under one. -/
theorem relocate_reads (s : ColumnarSegment K) (w : Fin (2 ^ 64)) :
    (∀ rts : List (RangeTombstone K),
      (s.rows.length < 2 ^ 32 → ∃ bitmap,
        buildPositionBitmap (s.rows.map fun e => (e.userKey, e.seqno)) rts w = some bitmap) ∧
      ∀ bitmap,
        buildPositionBitmap (s.rows.map fun e => (e.userKey, e.seqno)) rts w = some bitmap →
        ∀ pos, bitmap.contains pos = true ↔ ∃ e, s.rows[pos]? = some e ∧
          ∃ rt ∈ rts, rt.contains e.userKey = true ∧ rt.seqno < w.val ∧ e.seqno < rt.seqno) ∧
    ∀ strategy bitmap, s.planMergeOnRead strategy w = some (some bitmap) →
      ∃ t, s.relocate bitmap = some t ∧ ∀ R, w.val ≤ R →
        (∀ k, t.read k R = s.read k R) ∧
          ∀ op bounds, t.scan op bounds R = s.scan op bounds R := by
  have hw : w.val ≤ seqnoMax := Nat.le_sub_one_of_lt w.isLt
  constructor
  · intro rts
    obtain ⟨hsome, hcontains⟩ := s.positionBitmap_spec rts hw
    refine ⟨fun hlen => Option.isSome_iff_exists.1 (hsome.2 hlen), fun bitmap hbitmap pos => ?_⟩
    rw [hcontains bitmap hbitmap, Option.any_eq_true]
    simp only [isRtSuppressed_iff, RangeTombstone.contains_iff]
    grind
  · intro strategy bitmap hplan
    obtain ⟨t, ht, hmasks⟩ := relocate_masks hplan hw
    refine ⟨t, ht, fun R hR => hmasks.reads fun e he => ?_⟩
    rw [Bool.not_eq_false'] at he
    obtain ⟨rt, hrt, hv, hrest⟩ := isRtSuppressed_iff.1 he
    exact isRtSuppressed_iff.2 ⟨rt, hrt, hv.trans_le hR, hrest⟩

def twoBlocks : ColumnarSegment (List Byte) where
  blocks := [97, 98].map fun key => ⟨1, [⟨0, .bytes, none, bytesBody [[key]]⟩,
    ⟨1, .fixed 8, none, encodeLe 8 1⟩, ⟨2, .fixed 1, none, [0]⟩, ⟨3, .fixed 1, none, [7]⟩]⟩
  index := ⟨fun _ _ => [0, 1], fun _ => [98], fun _ => [0, 1], fun _ _ => true, fun _ => none⟩
  rangeTombstones := [⟨[98], [99], 4⟩]
  globalSeqno := 0
  deleteBitmap := .empty
  hasZoneMap := true
  verbatimUnsafe := false
  readable := by decide +kernel
  sorted := by decide +kernel
  candidates_asc := fun _ _ => show [0, 1].Pairwise (· < ·) by decide
  candidates_lt := fun _ _ => show ∀ i ∈ [0, 1], i < 2 by decide
  window_asc := fun _ => show [0, 1].Pairwise (· < ·) by decide
  window_lt := fun _ => show ∀ i ∈ [0, 1], i < 2 by decide
  locate_first := nofun
  ingested := fun _ => rfl

theorem relocate_twoBlocks : ∃ bitmap,
    twoBlocks.planMergeOnRead .mergeOnRead 5 = some (some bitmap) ∧ bitmap.contains 1 = true ∧
      ∃ t, twoBlocks.relocate bitmap = some t ∧ ∀ R, 5 ≤ R →
        ∀ k, t.read k R = twoBlocks.read k R := by
  have hmarked : (twoBlocks.planMergeOnRead .mergeOnRead 5).join.any (·.contains 1) = true := by
    decide +kernel
  obtain ⟨bitmap, hjoin, hcontains⟩ := Option.any_eq_true _ _ |>.1 hmarked
  have hplan := Option.join_eq_some_iff.1 hjoin
  obtain ⟨t, ht, hreads⟩ := (relocate_reads twoBlocks 5).2 _ _ hplan
  exact ⟨bitmap, hplan, hcontains, t, ht, fun R hR => (hreads R hR).1⟩

end ColumnarSegment

end LsmTree
