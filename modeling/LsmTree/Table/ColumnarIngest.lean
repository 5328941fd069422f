import LsmTree.Table.ColumnBatch

/-! Columnar ingestion. -/
namespace LsmTree

open Codec List

namespace ColumnBatch

/-- `first_user_key` and `last_user_key`: the key column is checked before it is read. -/
def userKeyAt (b : ColumnBatch) (row : ℕ) : Option (Option Bytes) :=
  if b.rowCount = 0 then some none
  else
    match b.columns with
    | [] => none
    | key :: _ => do
      guard (key.columnId = 0 ∧ key.typeTag = .bytes ∧ key.validity = none)
      guard (key.validate b.rowCount = true)
      (bytesColumnRow key.data b.rowCount row).map some

def validateColumnarIngestBatch (cmp : Bytes → Bytes → Ordering) (b : ColumnBatch) :
    Option Unit := do
  let p ← b.validateColumnarColumns
  guard (p.valueType.data.all fun byte => (ValueType.ofByte byte).isSome)
  let seqnos ← (List.range b.rowCount).mapM (fixedU64Row p.seqno.data)
  guard (seqnos.all (· == 0))
  let keys ← (List.range b.rowCount).mapM (bytesColumnRow p.key.data b.rowCount)
  guard (keys.all fun key => !key.isEmpty && decide (key.length ≤ maxKeyLength))
  guard (keys.IsChain fun x y => cmp x y = .lt)

end ColumnBatch

/-- A group of rows. `parts` are the batches it was made of; the code keeps only their sum. -/
structure Rowgroup where
  batch : ColumnBatch
  parts : List ColumnBatch
  deriving DecidableEq, Repr

structure ColumnarIngestion where
  lastKey : Option Bytes
  pending : Option Rowgroup
  /-- the last key in the table being written -/
  currentKey : Option Bytes
  blocks : List Rowgroup
  deriving DecidableEq, Repr

namespace ColumnarIngestion

def initial : ColumnarIngestion := ⟨none, none, none, []⟩

variable (cmp : Bytes → Bytes → Ordering) (target : ℕ) (rotates : ColumnarIngestion → Bool)

/-- `write_columnar_batch` of the writer; a new table may be started first. -/
def writeBlock (s : ColumnarIngestion) (g : Rowgroup) : Option ColumnarIngestion := do
  let current := if rotates s then none else s.currentKey
  let entries ← g.batch.columnBatchToEntries
  guard (entries.all (·.seqno == 0))
  guard ((current.toList ++ entries.map (·.userKey)).IsChain fun x y => cmp x y = .lt)
  match entries.getLast? with
  | none => pure { s with currentKey := current }
  | some last => pure { s with currentKey := some last.userKey, blocks := s.blocks ++ [g] }

def flushPendingColumnar (s : ColumnarIngestion) : Option ColumnarIngestion :=
  match s.pending with
  | none => some s
  | some g => writeBlock cmp rotates { s with pending := none } g

/-- The pending group is flushed and the batch starts a new one. -/
def startGroup (s : ColumnarIngestion) (batch : ColumnBatch) : Option ColumnarIngestion :=
  (flushPendingColumnar cmp rotates s).map fun s => { s with pending := some ⟨batch, [batch]⟩ }

/-- The batch joins the pending group if the layouts agree. -/
def accumulate (s : ColumnarIngestion) (batch : ColumnBatch) : Option ColumnarIngestion :=
  match s.pending with
  | none => startGroup cmp rotates s batch
  | some g =>
    if g.batch.sameLayout batch then
      (g.batch.append batch).map fun merged =>
        { s with pending := some ⟨merged, g.parts ++ [batch]⟩ }
    else startGroup cmp rotates s batch

def writeColumnarBatch (s : ColumnarIngestion) (batch : ColumnBatch) :
    Option ColumnarIngestion := do
  let first ← (if s.lastKey.isSome then batch.userKeyAt 0 else pure none)
  guard ((s.lastKey.toList ++ first.toList).IsChain fun x y => cmp x y = .lt)
  batch.validateColumnarIngestBatch cmp
  let s ← accumulate cmp rotates s batch
  let last ← batch.userKeyAt (batch.rowCount - 1)
  let s := { s with lastKey := last.or s.lastKey }
  if s.pending.any fun g => decide (target ≤ g.batch.dataSize) then
    flushPendingColumnar cmp rotates s
  else pure s

def finish (s : ColumnarIngestion) : Option ColumnarIngestion :=
  if s.lastKey.isNone then some s else flushPendingColumnar cmp rotates s

def ingest (batches : List ColumnBatch) : Option ColumnarIngestion :=
  (batches.foldlM (writeColumnarBatch cmp target rotates) initial).bind (finish cmp rotates)

end ColumnarIngestion

section Rowgroups

def rowsIn (parts : List ColumnBatch) : ℕ := (parts.map ColumnBatch.rowCount).sum

def ColumnBatch.hasRows (b : ColumnBatch) : Bool := decide (0 < b.rowCount)

/-- What the batch of a row gives for its value: its own cells, and whether a sub-column is
nullable in that batch. -/
def ColumnBatch.ownValue (b : ColumnBatch) (i : ℕ) : Option Bytes :=
  (rowCells b.valueColumns b.rowCount i).bind (rowValue b.nullable)

namespace Rowgroup

structure Accumulated (g : Rowgroup) : Prop where
  rowCount : g.batch.rowCount = rowsIn g.parts
  nullable : g.batch.nullable = g.parts.any ColumnBatch.nullable
  rows : ∀ pre part post, g.parts = pre ++ part :: post → ∀ i, i < part.rowCount →
    g.batch.rowKey (rowsIn pre + i) = part.rowKey i ∧
      rowCells g.batch.valueColumns g.batch.rowCount (rowsIn pre + i) =
        rowCells part.valueColumns part.rowCount i

def Readable (cmp : Bytes → Bytes → Ordering) (g : Rowgroup) : Prop :=
  ∃ es, g.batch.columnBatchToEntries = some es ∧ es ≠ [] ∧
    es.Pairwise fun x y => cmp x.userKey y.userKey = .lt

/-- Scans and point reads give each row of the block the value its own batch gives it. -/
def ReadsOwn (cmp : Bytes → Bytes → Ordering) (g : Rowgroup) : Prop :=
  ∀ pre part post, g.parts = pre ++ part :: post → ∀ i, i < part.rowCount →
    ∃ es e, g.batch.columnBatchIntoEntries = some es ∧ es[rowsIn pre + i]? = some e ∧
      g.batch.columnBatchMatchEntries cmp e.userKey (fun _ => some false) = some [e] ∧
      part.rowKey i = some e.userKey ∧ part.ownValue i = some e.value

variable {g : Rowgroup} {cmp : Bytes → Bytes → Ordering}

theorem accumulated_singleton (b : ColumnBatch) : Accumulated ⟨b, [b]⟩ where
  rowCount := by simp [rowsIn]
  nullable := by simp
  rows := by
    intro pre part post h i _
    cases pre with
    | nil =>
      obtain ⟨rfl, -⟩ := List.cons.inj h
      simp [rowsIn]
    | cons x pre => simp at h

theorem Accumulated.append (h : g.Accumulated) {b m : ColumnBatch}
    (hm : g.batch.append b = some m) :
    Accumulated ⟨m, g.parts ++ [b]⟩ := by
  obtain ⟨hrows, -, -⟩ := ColumnBatch.append_eq_some hm
  obtain ⟨hleft, hright, hnull⟩ := ColumnBatch.append_rows hm
  refine ⟨?_, ?_, ?_⟩
  · dsimp only
    rw [hrows, h.rowCount, rowsIn, rowsIn]
    simp
  · dsimp only
    rw [hnull, h.nullable]
    simp
  · intro pre part post heq i hi
    dsimp only at heq ⊢
    rcases eq_nil_or_concat post with rfl | ⟨post, last, rfl⟩
    · -- the last part: its rows come after those of the group
      obtain ⟨hpre, hpart⟩ := append_inj' heq rfl
      obtain ⟨rfl, -⟩ := List.cons.inj hpart
      rw [← hpre, ← h.rowCount]
      exact hright i hi
    · rw [concat_eq_append, ← cons_append, ← append_assoc] at heq
      have hparts := (append_inj' heq rfl).1
      obtain ⟨hkey, hcells⟩ := h.rows pre part post hparts i hi
      have hlt : rowsIn pre + i < g.batch.rowCount := by
        rw [h.rowCount, hparts]
        simp only [rowsIn, map_append, sum_append, map_cons, sum_cons]
        omega
      rw [(hleft _ hlt).1, (hleft _ hlt).2]
      exact ⟨hkey, hcells⟩

theorem Accumulated.rowCells_ne_nil (h : g.Accumulated) (hread : g.Readable cmp)
    {part : ColumnBatch} (hmem : part ∈ g.parts) {i : ℕ} (hi : i < part.rowCount) :
    rowCells part.valueColumns part.rowCount i ≠ some [] := by
  obtain ⟨pre, post, hparts⟩ := append_of_mem hmem
  obtain ⟨es, hes, -, -⟩ := hread
  obtain ⟨-, hvalues, -⟩ := ColumnBatch.columnBatchToEntries_eq_some hes
  intro hnil
  rw [← (h.rows pre part post hparts i hi).2] at hnil
  exact hvalues (length_eq_zero_iff.1 (Pointwise.mapM_length hnil).symm)

theorem Accumulated.filter_hasRows (h : g.Accumulated) (hzero : g.batch.rowCount = 0) :
    g.parts.filter ColumnBatch.hasRows = [] := by
  rw [h.rowCount, rowsIn, sum_eq_zero_iff] at hzero
  apply filter_eq_nil_iff.2
  intro part hpart
  simp [ColumnBatch.hasRows, hzero part.rowCount (mem_map_of_mem hpart)]

theorem Accumulated.hasRows (h : g.Accumulated) {part : ColumnBatch} (hpart : part ∈ g.parts)
    (hpos : 0 < part.rowCount) : g.batch.hasRows = true := by
  by_contra hnone
  have hempty := h.filter_hasRows (by simpa [ColumnBatch.hasRows] using hnone)
  exact filter_eq_nil_iff.1 hempty part hpart (decide_eq_true hpos)

section Reads

variable [Std.TransCmp cmp] {es : List (InternalValue Bytes Bytes)}

theorem filter_zipIdx_key (hes : es.Pairwise fun x y => cmp x.userKey y.userKey = .lt) {j : ℕ}
    {e : InternalValue Bytes Bytes} (he : es[j]? = some e) :
    ((es.zipIdx.filter fun x => cmp x.1.userKey e.userKey == .eq && !false).map (·.1)) = [e] := by
  have hkeys : (es.zipIdx.filter fun x => cmp x.1.userKey e.userKey == .eq && !false).map (·.1) =
      es.filter fun x => cmp x.userKey e.userKey == .eq && !false := by
    conv_rhs => rw [← zipIdx_map_fst 0 es, filter_map]
    rfl
  obtain ⟨pre, post, rfl⟩ := append_of_mem (mem_of_getElem? he)
  obtain ⟨-, hpost, hpre⟩ := pairwise_append.1 hes
  have hbefore : pre.filter (fun x => cmp x.userKey e.userKey == .eq && !false) = [] := by
    apply filter_eq_nil_iff.2
    intro x hx
    simp [hpre x hx e mem_cons_self]
  have hafter : post.filter (fun x => cmp x.userKey e.userKey == .eq && !false) = [] := by
    apply filter_eq_nil_iff.2
    intro x hx
    simp [Std.OrientedCmp.gt_of_lt ((pairwise_cons.1 hpost).1 x hx)]
  have hself : cmp e.userKey e.userKey = .eq := Std.ReflCmp.compare_self
  rw [hkeys, filter_append, hbefore, filter_cons_of_pos (by simp [hself]), hafter]
  rfl

theorem Accumulated.row_reads (h : g.Accumulated) (hread : g.Readable cmp)
    {pre : List ColumnBatch} {part : ColumnBatch} {post : List ColumnBatch}
    (hparts : g.parts = pre ++ part :: post) {i : ℕ} (hi : i < part.rowCount) :
    ∃ es e, g.batch.columnBatchIntoEntries = some es ∧ es[rowsIn pre + i]? = some e ∧
      g.batch.columnBatchMatchEntries cmp e.userKey (fun _ => some false) = some [e] ∧
      part.rowKey i = some e.userKey ∧
      (rowCells part.valueColumns part.rowCount i).bind
        (rowValue (g.parts.any ColumnBatch.nullable)) = some e.value := by
  obtain ⟨es, hes, hne, hsorted⟩ := hread
  obtain ⟨hlen, -, hrows⟩ := ColumnBatch.columnBatchToEntries_eq_some hes
  obtain ⟨hkey, hcells⟩ := h.rows pre part post hparts i hi
  have hj : rowsIn pre + i < es.length := by
    rw [hlen, h.rowCount, hparts]
    simp only [rowsIn, map_append, sum_append, map_cons, sum_cons]
    omega
  obtain ⟨hkey', hvalue⟩ := hrows _ hj
  have hget := getElem?_eq_getElem hj
  refine ⟨es, es[rowsIn pre + i], ?_, hget, ?_, ?_, ?_⟩
  · rw [ColumnBatch.columnBatchIntoEntries_eq, hes]
  · have hle : es.Pairwise fun x y => cmp x.userKey y.userKey ≠ .gt :=
      hsorted.imp fun hlt => by rw [hlt]; decide
    rw [ColumnBatch.columnBatchMatchEntries_eq hes hne hle fun _ _ => rfl,
      filter_zipIdx_key hsorted hget]
  · rw [← hkey, hkey']
  · rw [← hcells, ← h.nullable]
    exact hvalue

theorem readsOwn_iff (h : g.Accumulated) (hread : g.Readable cmp) : g.ReadsOwn cmp ↔
    ∀ part ∈ g.parts, 0 < part.rowCount → g.parts.any ColumnBatch.nullable = true →
      part.nullable = true := by
  constructor
  · intro hown part hmem hpos hnull
    by_contra hplain
    rw [Bool.not_eq_true] at hplain
    obtain ⟨pre, post, hparts⟩ := append_of_mem hmem
    obtain ⟨es, e, hes, he, -, -, hvalue⟩ := h.row_reads hread hparts hpos
    obtain ⟨es', e', hes', he', -, -, hvalue'⟩ := hown pre part post hparts 0 hpos
    obtain rfl := Option.some.inj (hes.symm.trans hes')
    obtain rfl := Option.some.inj (he.symm.trans he')
    -- the row has no nulls, and the block frames it as if it could have
    rw [hnull] at hvalue
    rw [ColumnBatch.ownValue, hplain] at hvalue'
    rw [rowCells_of_not_nullable _ _ _ hplain] at hvalue hvalue'
    cases hcells : part.valueColumns.mapM fun c : Column =>
        (c.cell part.rowCount 0).map (c.typeTag, ·) with
    | none =>
      rw [hcells] at hvalue
      cases hvalue
    | some cells =>
      have hne : cells ≠ [] := by
        rintro rfl
        apply h.rowCells_ne_nil hread hmem hpos
        rw [rowCells_of_not_nullable _ _ _ hplain, hcells]
        rfl
      rw [hcells] at hvalue hvalue'
      exact rowValue_ne hne hvalue hvalue'
  · intro hall pre part post hparts i hi
    have hflag : g.parts.any ColumnBatch.nullable = part.nullable := by
      have hmem : part ∈ g.parts := by simp [hparts]
      rw [Bool.eq_iff_iff]
      exact ⟨hall part hmem (by omega), fun hp => any_eq_true.2 ⟨part, hmem, hp⟩⟩
    obtain ⟨es, e, hes, he, hpoint, hkey, hvalue⟩ := h.row_reads hread hparts hi
    rw [hflag] at hvalue
    exact ⟨es, e, hes, he, hpoint, hkey, hvalue⟩

end Reads

end Rowgroup

end Rowgroups

namespace ColumnarIngestion

section Run

structure Sound (cmp : Bytes → Bytes → Ordering) (s : ColumnarIngestion)
    (given : List ColumnBatch) : Prop where
  blocks : ∀ g ∈ s.blocks, g.Accumulated ∧ g.Readable cmp
  pending : ∀ g ∈ s.pending, g.Accumulated
  parts : ((s.blocks ++ s.pending.toList).flatMap Rowgroup.parts).filter ColumnBatch.hasRows =
    given.filter ColumnBatch.hasRows

theorem initial_sound (cmp : Bytes → Bytes → Ordering) : Sound cmp initial [] := ⟨by simp [initial], by simp [initial], rfl⟩

variable {cmp : Bytes → Bytes → Ordering} [Std.TransCmp cmp] {target : ℕ}
  {rotates : ColumnarIngestion → Bool} {s s' : ColumnarIngestion} {given : List ColumnBatch}

theorem writeBlock_cases {g : Rowgroup} (h : writeBlock cmp rotates s g = some s') :
    s'.pending = s.pending ∧ s'.lastKey = s.lastKey ∧
      (g.batch.rowCount = 0 ∧ s'.blocks = s.blocks ∨
        g.Readable cmp ∧ s'.blocks = s.blocks ++ [g]) := by
  simp only [writeBlock] at h
  obtain ⟨entries, hentries, h⟩ := Option.bind_eq_some_iff.1 h
  rw [guard_bind_eq_some, guard_bind_eq_some] at h
  obtain ⟨-, hchain, h⟩ := h
  cases hlast : entries.getLast? with
  | none =>
    obtain rfl := getLast?_eq_none_iff.1 hlast
    cases h
    exact ⟨rfl, rfl, .inl ⟨(ColumnBatch.columnBatchToEntries_eq_some hentries).1.symm, rfl⟩⟩
  | some last =>
    rw [hlast] at h
    cases h
    refine ⟨rfl, rfl, .inr ⟨⟨entries, hentries, ?_, ?_⟩, rfl⟩⟩
    · rintro rfl
      cases hlast
    · have htrans : ∀ {x y z : Bytes}, cmp x y = .lt → cmp y z = .lt → cmp x z = .lt :=
        Std.TransCmp.lt_trans
      have : Trans (fun x y => cmp x y = .lt) (fun x y => cmp x y = .lt)
          (fun x y => cmp x y = .lt) := ⟨htrans⟩
      exact pairwise_map.1 (isChain_iff_pairwise.1 hchain.right_of_append)

theorem Sound.flush (h : Sound cmp s given) (hf : flushPendingColumnar cmp rotates s = some s') :
    Sound cmp s' given ∧ s'.pending = none ∧ s'.lastKey = s.lastKey := by
  cases hp : s.pending with
  | none =>
    rw [flushPendingColumnar, hp] at hf
    cases hf
    exact ⟨h, hp, rfl⟩
  | some g =>
    rw [flushPendingColumnar, hp] at hf
    obtain ⟨hpending, hkey, hblocks⟩ := writeBlock_cases hf
    have hg := h.pending g hp
    have hparts := h.parts
    rw [hp, Option.toList_some, flatMap_append, filter_append] at hparts
    refine ⟨?_, hpending, hkey⟩
    obtain ⟨hzero, hblocks⟩ | ⟨hread, hblocks⟩ := hblocks
    · refine ⟨hblocks ▸ h.blocks, by simp [hpending], ?_⟩
      rw [← hparts, hblocks, hpending]
      simp [hg.filter_hasRows hzero]
    · refine ⟨?_, by simp [hpending], ?_⟩
      · intro g' hg'
        rw [hblocks] at hg'
        obtain hg' | hg' := mem_append.1 hg'
        · exact h.blocks g' hg'
        · obtain rfl := mem_singleton.1 hg'
          exact ⟨hg, hread⟩
      · rw [← hparts, hblocks, hpending]
        simp

variable {b : ColumnBatch}

theorem Sound.startGroup (h : Sound cmp s given) (hs : startGroup cmp rotates s b = some s') :
    Sound cmp s' (given ++ [b]) ∧ s'.lastKey = s.lastKey := by
  obtain ⟨t, ht, rfl⟩ := Option.map_eq_some_iff.1 hs
  obtain ⟨hflushed, hpending, hkey⟩ := h.flush ht
  refine ⟨⟨hflushed.blocks, ?_, ?_⟩, hkey⟩
  · rintro g ⟨⟩
    exact Rowgroup.accumulated_singleton b
  · have hparts := hflushed.parts
    rw [hpending] at hparts
    rw [filter_append, ← hparts]
    simp

theorem Sound.accumulate (h : Sound cmp s given) (hs : accumulate cmp rotates s b = some s') :
    Sound cmp s' (given ++ [b]) ∧ s'.lastKey = s.lastKey := by
  cases hp : s.pending with
  | none =>
    rw [ColumnarIngestion.accumulate, hp] at hs
    exact h.startGroup hs
  | some g =>
    rw [ColumnarIngestion.accumulate, hp] at hs
    dsimp only at hs
    by_cases hlayout : g.batch.sameLayout b = true
    · rw [if_pos hlayout] at hs
      obtain ⟨merged, hmerged, rfl⟩ := Option.map_eq_some_iff.1 hs
      refine ⟨⟨h.blocks, ?_, ?_⟩, rfl⟩
      · rintro g' ⟨⟩
        exact (h.pending g hp).append hmerged
      · have hparts := h.parts
        rw [hp] at hparts
        rw [filter_append, ← hparts]
        simp
    · rw [if_neg hlayout] at hs
      exact h.startGroup hs

theorem rowCount_of_userKeyAt {row : ℕ} (h : b.userKeyAt row = some none) :
    b.rowCount = 0 := by
  by_contra hpos
  rw [ColumnBatch.userKeyAt, if_neg hpos] at h
  cases hcols : b.columns with
  | nil =>
    rw [hcols] at h
    cases h
  | cons key rest =>
    rw [hcols] at h
    dsimp only at h
    rw [guard_bind_eq_some, guard_bind_eq_some] at h
    obtain ⟨_, -, h⟩ := Option.map_eq_some_iff.1 h.2.2
    cases h

omit [Std.TransCmp cmp] in
theorem write_cases (h : writeColumnarBatch cmp target rotates s b = some s') :
    ∃ t last, accumulate cmp rotates s b = some t ∧ b.userKeyAt (b.rowCount - 1) = some last ∧
      ((∃ g ∈ t.pending, target ≤ g.batch.dataSize) ∧
          flushPendingColumnar cmp rotates { t with lastKey := last.or t.lastKey } = some s' ∨
        (∀ g ∈ t.pending, g.batch.dataSize < target) ∧
          s' = { t with lastKey := last.or t.lastKey }) := by
  obtain ⟨first, -, h⟩ := Option.bind_eq_some_iff.1 h
  rw [guard_bind_eq_some] at h
  obtain ⟨-, h⟩ := h
  obtain ⟨-, -, h⟩ := Option.bind_eq_some_iff.1 h
  obtain ⟨t, ht, h⟩ := Option.bind_eq_some_iff.1 h
  obtain ⟨last, hlast, h⟩ := Option.bind_eq_some_iff.1 h
  refine ⟨t, last, ht, hlast, ?_⟩
  dsimp only at h
  split at h
  case isTrue hfull => exact .inl ⟨by simpa [Option.any_eq_true] using hfull, h⟩
  case isFalse hroom =>
    cases h
    exact .inr ⟨by simpa [Option.any_eq_true] using hroom, rfl⟩

theorem Sound.write (h : Sound cmp s given)
    (hs : writeColumnarBatch cmp target rotates s b = some s') :
    Sound cmp s' (given ++ [b]) ∧ (s'.lastKey = none → s.lastKey = none ∧ b.rowCount = 0) := by
  obtain ⟨t, last, ht, hlast, hs⟩ := write_cases hs
  obtain ⟨hsound, hkey⟩ := h.accumulate ht
  have hupdated : Sound cmp { t with lastKey := last.or t.lastKey } (given ++ [b]) :=
    ⟨hsound.blocks, hsound.pending, hsound.parts⟩
  have hquiet : last.or t.lastKey = none → s.lastKey = none ∧ b.rowCount = 0 := by
    intro hnone
    obtain ⟨rfl, hnone⟩ := Option.or_eq_none_iff.1 hnone
    exact ⟨hkey ▸ hnone, rowCount_of_userKeyAt hlast⟩
  obtain ⟨-, hs⟩ | ⟨-, rfl⟩ := hs
  · obtain ⟨hflushed, -, hsame⟩ := hupdated.flush hs
    exact ⟨hflushed, fun hnone => hquiet (hsame.symm.trans hnone)⟩
  · exact ⟨hupdated, hquiet⟩

theorem Sound.run {bs : List ColumnBatch} (h : Sound cmp s given)
    (hs : bs.foldlM (writeColumnarBatch cmp target rotates) s = some s') :
    Sound cmp s' (given ++ bs) ∧
      (s'.lastKey = none → s.lastKey = none ∧ ∀ b ∈ bs, b.rowCount = 0) := by
  induction bs generalizing s given with
  | nil =>
    cases hs
    exact ⟨by simpa using h, fun hnone => ⟨hnone, by simp⟩⟩
  | cons b bs ih =>
    rw [foldlM_cons] at hs
    obtain ⟨t, ht, hs⟩ := Option.bind_eq_some_iff.1 hs
    obtain ⟨hsound, hquiet⟩ := h.write ht
    obtain ⟨hrest, hquiets⟩ := ih hsound hs
    refine ⟨by simpa using hrest, fun hnone => ?_⟩
    obtain ⟨hkey, hzeros⟩ := hquiets hnone
    obtain ⟨hkey, hzero⟩ := hquiet hkey
    exact ⟨hkey, forall_mem_cons.2 ⟨hzero, hzeros⟩⟩

theorem ingest_sound {batches : List ColumnBatch}
    (h : ingest cmp target rotates batches = some s) :
    (∀ g ∈ s.blocks, g.Accumulated ∧ g.Readable cmp) ∧
      (s.blocks.flatMap Rowgroup.parts).filter ColumnBatch.hasRows =
        batches.filter ColumnBatch.hasRows := by
  obtain ⟨t, ht, h⟩ := Option.bind_eq_some_iff.1 h
  obtain ⟨hsound, hquiet⟩ := (initial_sound cmp).run ht
  rw [nil_append] at hsound
  rw [finish] at h
  split at h
  · -- nothing was ingested: what is pending has no rows
    rename_i hnone
    cases h
    have hempty : batches.filter ColumnBatch.hasRows = [] := by
      apply filter_eq_nil_iff.2
      intro b hb
      simp [ColumnBatch.hasRows, (hquiet (Option.isNone_iff_eq_none.1 hnone)).2 b hb]
    have hparts := hsound.parts
    rw [hempty, flatMap_append, filter_append] at hparts
    rw [hempty]
    exact ⟨hsound.blocks, (append_eq_nil_iff.1 hparts).1⟩
  · obtain ⟨hflushed, hpending, -⟩ := hsound.flush h
    have hparts := hflushed.parts
    rw [hpending] at hparts
    exact ⟨hflushed.blocks, by simpa using hparts⟩

/-- The pending group with a batch of its layout. -/
def join (g : Rowgroup) (b : ColumnBatch) : Option Rowgroup :=
  if g.batch.sameLayout b then (g.batch.append b).map (⟨·, g.parts ++ [b]⟩) else none

/-- The groups that batches fall into: a batch joins the one before while the layouts agree, and a
group of the target size is closed. -/
def groups (target : ℕ) : Option Rowgroup → List ColumnBatch → List Rowgroup
  | pending, [] => pending.toList
  | pending, b :: bs =>
    let joined := pending.bind (join · b)
    let g := joined.getD ⟨b, [b]⟩
    (if joined.isSome then [] else pending.toList) ++
      if target ≤ g.batch.dataSize then g :: groups target none bs else groups target (some g) bs

def withRows (gs : List Rowgroup) : List Rowgroup := gs.filter fun g => g.batch.hasRows

theorem groups_accumulated {bs : List ColumnBatch} {pending : Option Rowgroup}
    (h : ∀ g ∈ pending, g.Accumulated) : ∀ g ∈ groups target pending bs, g.Accumulated := by
  induction bs generalizing pending with
  | nil => simpa [groups] using h
  | cons b bs ih =>
    have hjoined : ((pending.bind (join · b)).getD ⟨b, [b]⟩).Accumulated := by
      cases hj : pending.bind (join · b) with
      | none => exact Rowgroup.accumulated_singleton b
      | some g' =>
        obtain ⟨g, hg, hjoin⟩ := Option.bind_eq_some_iff.1 hj
        rw [join] at hjoin
        split at hjoin
        · obtain ⟨m, hm, rfl⟩ := Option.map_eq_some_iff.1 hjoin
          exact (h g hg).append hm
        · cases hjoin
    intro g hg
    simp only [groups, mem_append] at hg
    rcases hg with hg | hg
    · split at hg
      · cases hg
      · exact h g (by simpa using hg)
    · split at hg
      · rcases mem_cons.1 hg with rfl | hg
        · exact hjoined
        · exact ih (by simp) g hg
      · exact ih (by simpa using hjoined) g hg

theorem flush_withRows (h : flushPendingColumnar cmp rotates s = some s') :
    withRows s'.blocks = withRows (s.blocks ++ s.pending.toList) ∧ s'.pending = none := by
  rw [flushPendingColumnar] at h
  cases hp : s.pending with
  | none =>
    rw [hp] at h
    cases h
    exact ⟨by simp, hp⟩
  | some g =>
    rw [hp] at h
    obtain ⟨hpending, -, ⟨hzero, hblocks⟩ | ⟨-, hblocks⟩⟩ := writeBlock_cases h
    · exact ⟨by simp [hblocks, withRows, ColumnBatch.hasRows, hzero], hpending⟩
    · exact ⟨by simp [hblocks], hpending⟩

theorem startGroup_withRows (h : startGroup cmp rotates s b = some s') :
    withRows s'.blocks = withRows (s.blocks ++ s.pending.toList) ∧ s'.pending = some ⟨b, [b]⟩ := by
  obtain ⟨t, ht, rfl⟩ := Option.map_eq_some_iff.1 h
  exact ⟨(flush_withRows ht).1, rfl⟩

theorem accumulate_withRows (h : accumulate cmp rotates s b = some s') :
    withRows s'.blocks = withRows (s.blocks ++
        if (s.pending.bind (join · b)).isSome then [] else s.pending.toList) ∧
      s'.pending = some ((s.pending.bind (join · b)).getD ⟨b, [b]⟩) := by
  cases hp : s.pending with
  | none =>
    rw [accumulate, hp] at h
    simpa [hp] using startGroup_withRows h
  | some g =>
    rw [accumulate, hp] at h
    dsimp only at h
    split at h
    case isTrue hlayout =>
      obtain ⟨merged, hmerged, rfl⟩ := Option.map_eq_some_iff.1 h
      simp [join, hlayout, hmerged]
    case isFalse hlayout => simpa [join, hlayout, hp] using startGroup_withRows h

theorem write_withRows (h : writeColumnarBatch cmp target rotates s b = some s')
    (bs : List ColumnBatch) : withRows (s'.blocks ++ groups target s'.pending bs) =
      withRows (s.blocks ++ groups target s.pending (b :: bs)) := by
  obtain ⟨t, last, ht, -, h⟩ := write_cases h
  obtain ⟨hblocks, hpending⟩ := accumulate_withRows ht
  simp only [withRows, filter_append] at hblocks ⊢
  rw [groups, filter_append, ← append_assoc, ← hblocks]
  obtain ⟨⟨g, hg, hfull⟩, h⟩ | ⟨hroom, rfl⟩ := h
  · obtain ⟨hflushed, hnone⟩ := flush_withRows h
    obtain rfl := Option.some.inj (hg.symm.trans hpending)
    simp only [withRows, Option.mem_def.1 hg, Option.toList_some, filter_append] at hflushed
    rw [hnone, hflushed, if_pos hfull, append_assoc, ← filter_append]
    rfl
  · rw [if_neg (not_le.2 (hroom _ hpending)), hpending]

theorem ingest_withRows {batches : List ColumnBatch}
    (h : ingest cmp target rotates batches = some s) :
    withRows s.blocks = withRows (groups target none batches) := by
  obtain ⟨t, ht, h⟩ := Option.bind_eq_some_iff.1 h
  have hrun : ∀ (bs : List ColumnBatch) (s : ColumnarIngestion),
      bs.foldlM (writeColumnarBatch cmp target rotates) s = some t →
        withRows (t.blocks ++ t.pending.toList) = withRows (s.blocks ++ groups target s.pending bs) := by
    intro bs
    induction bs with
    | nil =>
      rintro s ⟨⟩
      rfl
    | cons b bs ih =>
      intro s hs
      rw [foldlM_cons] at hs
      obtain ⟨u, hu, hs⟩ := Option.bind_eq_some_iff.1 hs
      rw [ih u hs, write_withRows hu]
  refine Eq.trans ?_ (hrun batches initial ht)
  rw [finish] at h
  split at h
  case isFalse => exact (flush_withRows h).1
  case isTrue hnone =>
    -- nothing was ingested: what is pending has no rows
    cases h
    obtain ⟨hsound, hquiet⟩ := (initial_sound cmp).run ht
    have hzero := (hquiet (Option.isNone_iff_eq_none.1 hnone)).2
    have hparts : ∀ g ∈ s.pending, g.batch.rowCount = 0 := by
      intro g hg
      rw [(hsound.pending g hg).rowCount, rowsIn, sum_eq_zero_iff]
      intro n hn
      obtain ⟨part, hpart, rfl⟩ := mem_map.1 hn
      by_contra hpos
      have hmem : part ∈ ((s.blocks ++ s.pending.toList).flatMap Rowgroup.parts).filter
          ColumnBatch.hasRows := by
        refine mem_filter.2 ⟨mem_flatMap.2 ⟨g, by simp [Option.mem_def.1 hg], hpart⟩, ?_⟩
        simpa [ColumnBatch.hasRows, Nat.pos_iff_ne_zero] using hpos
      rw [hsound.parts] at hmem
      exact hpos (hzero part (by simpa using (mem_filter.1 hmem).1))
    cases hp : s.pending with
    | none => simp
    | some g => simp [withRows, ColumnBatch.hasRows, hparts g hp]

/-- After an ingestion every row is in a block. All rows read as their own batches give them
if and only if no batch without nulls fell into a group with a nullable sub-column. -/
theorem ingest_readsOwn_iff {batches : List ColumnBatch}
    (h : ingest cmp target rotates batches = some s) :
    (s.blocks.flatMap Rowgroup.parts).filter ColumnBatch.hasRows =
        batches.filter ColumnBatch.hasRows ∧
      ((∀ g ∈ s.blocks, g.ReadsOwn cmp) ↔
        ∀ g ∈ groups target none batches, ∀ part ∈ g.parts, 0 < part.rowCount →
          g.parts.any ColumnBatch.nullable = true → part.nullable = true) := by
  obtain ⟨hblocks, hparts⟩ := ingest_sound h
  refine ⟨hparts, ?_⟩
  have hsame : ∀ g : Rowgroup, g.batch.hasRows = true →
      (g ∈ s.blocks ↔ g ∈ groups target none batches) := by
    intro g hrows
    have hmem := Iff.of_eq (congrArg (g ∈ ·) (ingest_withRows h))
    simpa [withRows, mem_filter, hrows] using hmem
  have hread : (∀ g ∈ s.blocks, g.ReadsOwn cmp) ↔ ∀ g ∈ s.blocks, ∀ part ∈ g.parts,
      0 < part.rowCount → g.parts.any ColumnBatch.nullable = true → part.nullable = true :=
    forall₂_congr fun g hg => Rowgroup.readsOwn_iff (hblocks g hg).1 (hblocks g hg).2
  rw [hread]
  constructor
  · intro hall g hg part hpart hpos
    have hrows := (groups_accumulated (by simp) g hg).hasRows hpart hpos
    exact hall g ((hsame g hrows).2 hg) part hpart hpos
  · intro hall g hg part hpart hpos
    exact hall g ((hsame g ((hblocks g hg).1.hasRows hpart hpos)).1 hg) part hpart hpos

end Run

/-- A batch of one row with one value column of a single byte. -/
def byteRow (key value : Fin 256) (validity : Option Bytes) : ColumnBatch :=
  ⟨1, [⟨0, .bytes, none, bytesBody [[key]]⟩, ⟨1, .fixed 8, none, encodeLe 8 0⟩,
    ⟨2, .fixed 1, none, [0]⟩, ⟨3, .fixed 1, validity, [value]⟩]⟩

/-- Two rows without nulls fill a block, two nullable ones the next. -/
def fourRows : List ColumnBatch :=
  [byteRow 97 9 none, byteRow 98 8 none, byteRow 99 7 (some [0]), byteRow 100 6 (some [1])]

theorem ingest_fourRows : ∃ s, ingest compare 30 (fun _ => false) fourRows = some s ∧
    (s.blocks.flatMap Rowgroup.parts).filter ColumnBatch.hasRows = fourRows ∧
      ∀ g ∈ s.blocks, g.ReadsOwn compare := by
  have hrun : (ingest compare 30 (fun _ => false) fourRows).isSome = true := by decide +kernel
  obtain ⟨s, hs⟩ := Option.isSome_iff_exists.1 hrun
  obtain ⟨hparts, hreads⟩ := ingest_readsOwn_iff hs
  exact ⟨s, hs, hparts, hreads.2 (by decide +kernel)⟩

/-- The same row is read with other bytes when the next batch has a nullable sub-column: the
byte `9` gets the bitmap of the nullable framing in front. -/
theorem nullable_neighbour_reframes_row :
    (byteRow 97 9 none).ownValue 0 = some [9] ∧
      ∃ merged, ingest compare 100 (fun _ => false) [byteRow 97 9 none, byteRow 98 8 (some [1])] =
          some ⟨some [98], none, some [98],
            [⟨merged, [byteRow 97 9 none, byteRow 98 8 (some [1])]⟩]⟩ ∧
        merged.columnBatchIntoEntries =
          some [⟨[97], 0, .value, [1, 9]⟩, ⟨[98], 0, .value, [1, 8]⟩] ∧
        merged.columnBatchMatchEntries compare [97] (fun _ => some false) =
          some [⟨[97], 0, .value, [1, 9]⟩] ∧
        ingest compare 100 (fun _ => false) [byteRow 97 9 none] = some ⟨some [97], none, some [97],
          [⟨byteRow 97 9 none, [byteRow 97 9 none]⟩]⟩ ∧
        (byteRow 97 9 none).columnBatchIntoEntries = some [⟨[97], 0, .value, [9]⟩] := by
  refine ⟨by decide +kernel, ⟨2, [⟨0, .bytes, none, bytesBody [[97], [98]]⟩,
    ⟨1, .fixed 8, none, encodeLe 8 0 ++ encodeLe 8 0⟩, ⟨2, .fixed 1, none, [0, 0]⟩,
    ⟨3, .fixed 1, some [3], [9, 8]⟩]⟩, ?_, ?_, ?_, ?_, ?_⟩ <;> decide +kernel

end ColumnarIngestion

end LsmTree
