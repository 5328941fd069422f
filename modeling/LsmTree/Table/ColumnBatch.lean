import LsmTree.Key
import LsmTree.Table.Column
import LsmTree.Table.DataBlock
import LsmTree.Theory.SortedSearch

/-! Columnar blocks: three columns for key, sequence number and type, and sub-columns for the value.
-/
namespace LsmTree

open Codec List

structure ColumnBatch where
  rowCount : ℕ
  columns : List Column
  deriving DecidableEq, Repr

section Framing

/-- A cell of fixed width stands for itself, another one follows its length. -/
def frameCell (tag : TypeTag) (cell : Bytes) : Option Bytes :=
  match tag with
  | .fixed width => if cell.length = width.val then some cell else none
  | .bytes => if cell.length < 256 ^ 4 then some (encodeLe 4 cell.length ++ cell) else none

def frameValueCells (cells : List (TypeTag × Bytes)) : Option Bytes :=
  (cells.mapM fun cell => frameCell cell.1 cell.2).map List.flatten

/-- A bitmap of the cells that are there, then these. -/
def frameValueCellsNullable (cells : List (TypeTag × Option Bytes)) : Option Bytes :=
  (frameValueCells (cells.filterMap fun cell => cell.2.map (cell.1, ·))).map
    (BitSet.build cells.length (fun i => cells[i]?.any (·.2.isSome)) ++ ·)

/-- The value of a row from its own cells, in a block with or without a nullable sub-column. -/
def rowValue (nullable : Bool) (cells : List (TypeTag × Option Bytes)) : Option Bytes :=
  if nullable then frameValueCellsNullable cells
  else
    match cells with
    | [(_, some cell)] => some cell
    | _ => frameValueCells (cells.filterMap fun cell => cell.2.map (cell.1, ·))

end Framing

section Rows

variable (cols : List Column) (rowCount row : ℕ)

def reconstructRowValue : Option Bytes :=
  if cols.any (·.validity.isSome) then do
    let cells ← cols.mapM fun c => (c.valueCell rowCount row).map (c.typeTag, ·)
    frameValueCellsNullable cells
  else
    match cols with
    | [single] => single.cell rowCount row
    | _ => do
      let cells ← cols.mapM fun c => (c.cell rowCount row).map (c.typeTag, ·)
      frameValueCells cells

def rowCells : Option (List (TypeTag × Option Bytes)) :=
  cols.mapM fun c => (c.valueCell rowCount row).map (c.typeTag, ·)

theorem filterMap_present (cells : List (TypeTag × Bytes)) :
    ((cells.map fun cell => (cell.1, some cell.2)).filterMap
      fun cell : TypeTag × Option Bytes => cell.2.map (cell.1, ·)) = cells := by
  simp [filterMap_map]

theorem rowCells_of_not_nullable (h : cols.any (·.validity.isSome) = false) :
    rowCells cols rowCount row =
      (cols.mapM fun c : Column => (c.cell rowCount row).map (c.typeTag, ·)).map
        (List.map fun cell => (cell.1, some cell.2)) := by
  rw [rowCells, ← Pointwise.mapM_option_map]
  apply Pointwise.mapM_congr
  intro c hc
  have hnone : c.validity = none := by simpa using any_eq_false.1 h c hc
  rw [Column.valueCell, hnone, Option.map_map, Option.map_map]
  rfl

theorem reconstructRowValue_eq : reconstructRowValue cols rowCount row =
    (rowCells cols rowCount row).bind (rowValue (cols.any (·.validity.isSome))) := by
  by_cases hnull : cols.any (·.validity.isSome) = true
  · simp only [reconstructRowValue, hnull]
    rfl
  · rw [Bool.not_eq_true] at hnull
    rw [rowCells_of_not_nullable cols rowCount row hnull, hnull]
    match cols with
    | [] => rfl
    | [a] =>
      simp only [reconstructRowValue, hnull, mapM_cons, mapM_nil]
      cases a.cell rowCount row <;> rfl
    | a :: b :: rest =>
      simp only [reconstructRowValue, hnull, Bool.false_eq_true, if_false]
      cases hcells : (a :: b :: rest).mapM fun c : Column =>
          (c.cell rowCount row).map (c.typeTag, ·) with
      | none => rfl
      | some cells =>
        have hlen := Pointwise.mapM_length hcells
        match cells with
        | x :: y :: zs =>
          have hpresent := filterMap_present (x :: y :: zs)
          simp only [Option.bind_eq_bind, Option.bind_some, Option.map_some, map_cons,
            rowValue, Bool.false_eq_true, if_false] at hpresent ⊢
          rw [hpresent]

theorem length_le_frameCell {tag : TypeTag} {cell frame : Bytes}
    (h : frameCell tag cell = some frame) : cell.length ≤ frame.length := by
  cases tag with
  | fixed width =>
    rw [frameCell] at h
    split_ifs at h
    rw [← Option.some.inj h]
  | bytes =>
    rw [frameCell] at h
    split_ifs at h
    rw [← Option.some.inj h, length_append]
    omega

theorem rowValue_false_length {cells : List (TypeTag × Bytes)} {body value : Bytes}
    (hbody : frameValueCells cells = some body)
    (h : rowValue false (cells.map fun cell => (cell.1, some cell.2)) = some value) :
    value.length ≤ body.length := by
  match cells with
  | [] =>
    cases hbody
    cases h
    exact le_rfl
  | [cell] =>
    obtain rfl : cell.2 = value := Option.some.inj h
    rw [frameValueCells, mapM_cons, mapM_nil] at hbody
    cases hframe : frameCell cell.1 cell.2 with
    | none => simp [hframe] at hbody
    | some frame =>
      obtain rfl : frame = body := by simpa [hframe] using hbody
      exact length_le_frameCell hframe
  | x :: y :: zs =>
    have hpresent := filterMap_present (x :: y :: zs)
    simp only [map_cons, rowValue, Bool.false_eq_true, if_false] at hpresent h
    rw [hpresent, hbody] at h
    rw [Option.some.inj h]

theorem rowValue_ne {cells : List (TypeTag × Bytes)} (hne : cells ≠ []) {value : Bytes}
    (h : rowValue true (cells.map fun cell => (cell.1, some cell.2)) = some value) :
    rowValue false (cells.map fun cell => (cell.1, some cell.2)) ≠ some value := by
  simp only [rowValue, if_true, frameValueCellsNullable, filterMap_present] at h
  obtain ⟨body, hbody, rfl⟩ := Option.map_eq_some_iff.1 h
  intro heq
  have hle := rowValue_false_length hbody heq
  have hpos := length_pos_iff.2 hne
  rw [length_append, BitSet.build_length, BitSet.size, length_map] at hle
  omega

end Rows

namespace ColumnBatch

def sameLayout (a b : ColumnBatch) : Bool :=
  decide (a.columns.length = b.columns.length) &&
    (a.columns.zip b.columns).all fun (x, y) => x.columnId == y.columnId && x.typeTag == y.typeTag

def dataSize (b : ColumnBatch) : ℕ :=
  (b.columns.map fun c => c.data.length + (c.validity.map List.length).getD 0).sum

def append (a b : ColumnBatch) : Option ColumnBatch := do
  guard (a.columns.length = b.columns.length)
  guard (a.rowCount + b.rowCount < 2 ^ 32)
  guard ((a.columns.zip b.columns).all fun (x, y) =>
    x.columnId == y.columnId && x.typeTag == y.typeTag &&
      x.validate a.rowCount && y.validate b.rowCount)
  let columns ← (a.columns.zip b.columns).mapM fun (x, y) => mergeColumn a.rowCount b.rowCount x y
  pure ⟨a.rowCount + b.rowCount, columns⟩

/-- The columns of a batch that passed `validate_columnar_columns`. -/
structure Parts where
  key : Column
  seqno : Column
  valueType : Column
  values : List Column

def validateColumnarColumns (b : ColumnBatch) : Option Parts :=
  match b.columns with
  | key :: seqno :: valueType :: values => do
    guard (values ≠ [])
    guard (key.columnId = 0 ∧ key.typeTag = .bytes ∧ seqno.columnId = 1 ∧
      seqno.typeTag = .fixed 8 ∧ valueType.columnId = 2 ∧ valueType.typeTag = .fixed 1)
    guard ([key, seqno, valueType].all fun c => c.validity.isNone && c.validate b.rowCount)
    guard ((values.map Column.columnId).Nodup ∧ ∀ c ∈ values, 3 ≤ c.columnId)
    guard (values.all fun c => c.validate b.rowCount)
    pure ⟨key, seqno, valueType, values⟩
  | _ => none

def valueColumns (b : ColumnBatch) : List Column := b.columns.drop 3

def nullable (b : ColumnBatch) : Bool := b.valueColumns.any (·.validity.isSome)

def rowKey (b : ColumnBatch) (i : ℕ) : Option Bytes :=
  b.columns.head?.bind fun key => key.cell b.rowCount i

section Append

structure Merges (aRows bRows : ℕ) (x y m : Column) : Prop where
  tag : x.typeTag = y.typeTag
  left : x.validate aRows = true
  right : y.validate bRows = true
  merged : mergeColumn aRows bRows x y = some m

variable {aRows bRows : ℕ} {xs ys ms : List Column} {a b m : ColumnBatch}

theorem rowCells_merged (hlen : xs.length = ys.length)
    (h : List.Forall₂ (fun p c => Merges aRows bRows p.1 p.2 c) (xs.zip ys) ms) :
    (∀ i, i < aRows → rowCells ms (aRows + bRows) i = rowCells xs aRows i) ∧
    (∀ i, i < bRows → rowCells ms (aRows + bRows) (aRows + i) = rowCells ys bRows i) ∧
    ms.any (·.validity.isSome) = (xs.any (·.validity.isSome) || ys.any (·.validity.isSome)) := by
  induction xs generalizing ys ms with
  | nil =>
    obtain rfl : ys = [] := length_eq_zero_iff.1 hlen.symm
    cases h
    exact ⟨fun _ _ => rfl, fun _ _ => rfl, rfl⟩
  | cons x xs ih =>
    cases ys with
    | nil => cases hlen
    | cons y ys =>
      cases h with
      | @cons _ c _ cs hc hcs =>
        obtain ⟨hleft, hright, hnull⟩ := ih (Nat.succ.inj hlen) hcs
        obtain ⟨hrows, hrows'⟩ := Column.mergeColumn_rows hc.left hc.right hc.tag hc.merged
        obtain ⟨-, htag, hsome⟩ := Column.mergeColumn_layout hc.merged
        simp only [rowCells, mapM_cons] at hleft hright ⊢
        refine ⟨fun i hi => ?_, fun i hi => ?_, ?_⟩
        · rw [(hrows i hi).2, hleft i hi, htag]
        · rw [(hrows' i hi).2, hright i hi, htag, hc.tag]
        · simp only [any_cons, hnull, hsome]
          cases x.validity.isSome <;> cases y.validity.isSome <;> simp

theorem append_eq_some (h : a.append b = some m) : m.rowCount = a.rowCount + b.rowCount ∧
    a.columns.length = b.columns.length ∧
    List.Forall₂ (fun p c => Merges a.rowCount b.rowCount p.1 p.2 c)
      (a.columns.zip b.columns) m.columns := by
  rw [append, guard_bind_eq_some, guard_bind_eq_some, guard_bind_eq_some] at h
  obtain ⟨hlen, -, hall, h⟩ := h
  obtain ⟨columns, hcolumns, h⟩ := Option.bind_eq_some_iff.1 h
  cases h
  refine ⟨rfl, hlen, ?_⟩
  have hboth := (List.forall₂_and_left _ _).2
    ⟨all_eq_true.1 hall, Pointwise.forall₂_of_mapM hcolumns⟩
  refine hboth.imp fun p c ⟨hchecks, hmerge⟩ => ?_
  simp only [Bool.and_eq_true, beq_iff_eq] at hchecks
  exact ⟨hchecks.1.1.2, hchecks.1.2, hchecks.2, hmerge⟩

theorem rowKey_merged (hrows : m.rowCount = a.rowCount + b.rowCount)
    (hlen : a.columns.length = b.columns.length)
    (h : List.Forall₂ (fun p c => Merges a.rowCount b.rowCount p.1 p.2 c)
      (a.columns.zip b.columns) m.columns) :
    (∀ i, i < a.rowCount → m.rowKey i = a.rowKey i) ∧
      ∀ i, i < b.rowCount → m.rowKey (a.rowCount + i) = b.rowKey i := by
  obtain ⟨aRows, xs⟩ := a
  obtain ⟨bRows, ys⟩ := b
  obtain ⟨mRows, ms⟩ := m
  dsimp only at hrows hlen h
  subst hrows
  cases xs with
  | nil =>
    obtain rfl : ys = [] := length_eq_zero_iff.1 hlen.symm
    cases h
    exact ⟨fun _ _ => rfl, fun _ _ => rfl⟩
  | cons x xs =>
    cases ys with
    | nil => cases hlen
    | cons y ys =>
      cases h with
      | cons hc _ =>
        obtain ⟨hrows, hrows'⟩ := Column.mergeColumn_rows hc.left hc.right hc.tag hc.merged
        exact ⟨fun i hi => (hrows i hi).1, fun i hi => (hrows' i hi).1⟩

theorem append_rows (h : a.append b = some m) :
    (∀ i, i < a.rowCount → m.rowKey i = a.rowKey i ∧
      rowCells m.valueColumns m.rowCount i = rowCells a.valueColumns a.rowCount i) ∧
    (∀ i, i < b.rowCount → m.rowKey (a.rowCount + i) = b.rowKey i ∧
      rowCells m.valueColumns m.rowCount (a.rowCount + i) =
        rowCells b.valueColumns b.rowCount i) ∧
    m.nullable = (a.nullable || b.nullable) := by
  obtain ⟨hrows, hlen, hmerged⟩ := append_eq_some h
  have hdrop := List.forall₂_drop 3 hmerged
  rw [List.zip, drop_zipWith] at hdrop
  obtain ⟨hleft, hright, hnull⟩ := rowCells_merged (by simp [hlen]) hdrop
  obtain ⟨hkey, hkey'⟩ := rowKey_merged hrows hlen hmerged
  rw [hrows]
  exact ⟨fun i hi => ⟨hkey i hi, hleft i hi⟩, fun i hi => ⟨hkey' i hi, hright i hi⟩, hnull⟩

end Append

section Entries

def fixedU64Row (data : Bytes) (i : ℕ) : Option ℕ :=
  (fixedColumnRow data 8 i).bind fun bytes => (decodeLe 8 bytes).map (·.1)

def decodeRow (p : Parts) (readKey readValue : ℕ → Option Bytes) (i : ℕ) :
    Option (InternalValue Bytes Bytes) := do
  let userKey ← readKey i
  guard (userKey ≠ [] ∧ userKey.length ≤ maxKeyLength)
  let seqno ← fixedU64Row p.seqno.data i
  let byte ← p.valueType.data[i]?
  let valueType ← ValueType.ofByte byte
  let value ← readValue i
  pure ⟨userKey, seqno, valueType, value⟩

def columnBatchToEntries (b : ColumnBatch) : Option (List (InternalValue Bytes Bytes)) := do
  let p ← b.validateColumnarColumns
  (List.range b.rowCount).mapM (decodeRow p (bytesColumnRow p.key.data b.rowCount)
    (reconstructRowValue p.values b.rowCount))

/-- The values of the scan: a single column of bytes without nulls is read in place. -/
def valueSource (values : List Column) (rowCount : ℕ) : ℕ → Option Bytes :=
  match values with
  | [c] =>
    if c.typeTag = .bytes ∧ c.validity = none then bytesRowSlice c.data rowCount
    else reconstructRowValue values rowCount
  | _ => reconstructRowValue values rowCount

/-- `column_batch_into_entries`, for scans -/
def columnBatchIntoEntries (b : ColumnBatch) : Option (List (InternalValue Bytes Bytes)) := do
  let p ← b.validateColumnarColumns
  (List.range b.rowCount).mapM (decodeRow p (bytesRowSlice p.key.data b.rowCount)
    (valueSource p.values b.rowCount))

/-- The rows from `row` on whose key is the needle, without the masked ones. -/
def collectMatches (cmp : Bytes → Bytes → Ordering) (needle : Bytes)
    (masked : ℕ → Option Bool) (readKey : ℕ → Option Bytes)
    (decode : ℕ → Option (InternalValue Bytes Bytes)) :
    ℕ → ℕ → Option (List (InternalValue Bytes Bytes))
  | 0, _ => some []
  | fuel + 1, row => do
    let key ← readKey row
    if cmp key needle ≠ .eq then some []
    else
      let mask ← masked row
      if mask then collectMatches cmp needle masked readKey decode fuel (row + 1)
      else
        let entry ← decode row
        let rest ← collectMatches cmp needle masked readKey decode fuel (row + 1)
        pure (entry :: rest)

/-- `column_batch_match_entries`, for point reads. `masked` tells of a row whether the delete
bitmap has it. -/
def columnBatchMatchEntries (cmp : Bytes → Bytes → Ordering) (needle : Bytes)
    (masked : ℕ → Option Bool) (b : ColumnBatch) : Option (List (InternalValue Bytes Bytes)) := do
  let p ← b.validateColumnarColumns
  guard (b.rowCount ≠ 0)
  let readKey := bytesColumnRow p.key.data b.rowCount
  let lo ← SortedSearch.bisect (fun mid => (readKey mid).map fun key => cmp key needle == .lt)
    b.rowCount 0 b.rowCount
  collectMatches cmp needle masked readKey
    (decodeRow p readKey (reconstructRowValue p.values b.rowCount)) (b.rowCount - lo) lo

theorem valueSource_eq (values : List Column) (rowCount : ℕ) :
    valueSource values rowCount = reconstructRowValue values rowCount := by
  match values with
  | [] => rfl
  | _ :: _ :: _ => rfl
  | [c] =>
    simp only [valueSource]
    by_cases h : c.typeTag = .bytes ∧ c.validity = none
    · rw [if_pos h]
      funext i
      simp [reconstructRowValue, h.2, Column.cell, h.1, bytesRowSlice_eq]
    · rw [if_neg h]

theorem columnBatchIntoEntries_eq (b : ColumnBatch) :
    b.columnBatchIntoEntries = b.columnBatchToEntries := by
  rw [columnBatchIntoEntries, columnBatchToEntries]
  apply bind_congr
  intro p
  have hkey : bytesRowSlice p.key.data b.rowCount = bytesColumnRow p.key.data b.rowCount :=
    funext fun i => bytesRowSlice_eq _ _ i
  rw [hkey, valueSource_eq]

section Spec

variable {b : ColumnBatch} {p : Parts} {es : List (InternalValue Bytes Bytes)}

theorem validateColumnarColumns_eq_some (h : b.validateColumnarColumns = some p) :
    b.columns = p.key :: p.seqno :: p.valueType :: p.values ∧ p.values ≠ [] ∧
      p.key.typeTag = .bytes := by
  rw [validateColumnarColumns] at h
  split at h
  · simp only [guard_bind_eq_some] at h
    obtain ⟨hne, hlayout, -, -, -, h⟩ := h
    cases h
    exact ⟨‹_›, hne, hlayout.2.1⟩
  · cases h

theorem columnBatchToEntries_eq_some (h : b.columnBatchToEntries = some es) :
    es.length = b.rowCount ∧ b.valueColumns ≠ [] ∧ ∀ (i : ℕ) (hi : i < es.length),
      b.rowKey i = some es[i].userKey ∧
        (rowCells b.valueColumns b.rowCount i).bind (rowValue b.nullable) = some es[i].value := by
  obtain ⟨p, hp, h⟩ := Option.bind_eq_some_iff.1 h
  obtain ⟨hcolumns, hne, htag⟩ := validateColumnarColumns_eq_some hp
  obtain ⟨hlen, hrows⟩ := Pointwise.mapM_range_iff.1 h
  have hvalues : b.valueColumns = p.values := by rw [valueColumns, hcolumns]; rfl
  refine ⟨hlen, hvalues ▸ hne, fun i hi => ?_⟩
  obtain ⟨key, hkey, hrow⟩ := Option.bind_eq_some_iff.1 (hrows i hi)
  rw [guard_bind_eq_some] at hrow
  obtain ⟨-, hrow⟩ := hrow
  obtain ⟨seqno, -, hrow⟩ := Option.bind_eq_some_iff.1 hrow
  obtain ⟨byte, -, hrow⟩ := Option.bind_eq_some_iff.1 hrow
  obtain ⟨valueType, -, hrow⟩ := Option.bind_eq_some_iff.1 hrow
  obtain ⟨value, hvalue, hrow⟩ := Option.bind_eq_some_iff.1 hrow
  rw [← Option.some.inj hrow]
  constructor
  · rw [rowKey, hcolumns]
    simpa [Column.cell, htag] using hkey
  · rw [nullable, hvalues, ← reconstructRowValue_eq]
    exact hvalue

variable {cmp : Bytes → Bytes → Ordering} [Std.TransCmp cmp] {needle : Bytes}
  {masked : ℕ → Option Bool} {q : ℕ → Bool} {readKey : ℕ → Option Bytes}
  {decode : ℕ → Option (InternalValue Bytes Bytes)}

theorem collectMatches_eq
    (hsorted : es.Pairwise fun x y => cmp x.userKey y.userKey ≠ .gt)
    (hkey : ∀ (i : ℕ) (hi : i < es.length), readKey i = some es[i].userKey)
    (hdecode : ∀ (i : ℕ) (hi : i < es.length), decode i = some es[i])
    (hmask : ∀ i, i < es.length → masked i = some (q i)) {fuel row : ℕ}
    (hfuel : row + fuel = es.length)
    (hnot : ∀ (i : ℕ) (hi : i < es.length), row ≤ i → cmp es[i].userKey needle ≠ .lt) :
    collectMatches cmp needle masked readKey decode fuel row =
      some (((es.zipIdx.drop row).filter
        fun x => cmp x.1.userKey needle == .eq && !q x.2).map (·.1)) := by
  induction fuel generalizing row with
  | zero =>
    rw [drop_eq_nil_of_le (by rw [length_zipIdx]; omega)]
    rfl
  | succ fuel ih =>
    have hrow : row < es.length := by omega
    have hrest := @ih (row + 1) (by omega) fun i hi hle => hnot i hi (by omega)
    have hdrop : es.zipIdx.drop row = (es[row], row) :: es.zipIdx.drop (row + 1) := by
      rw [drop_eq_getElem_cons (by rw [length_zipIdx]; exact hrow), getElem_zipIdx,
        Nat.zero_add]
    rw [collectMatches, hkey row hrow, hdrop]
    simp only [Option.bind_eq_bind, Option.bind_some]
    by_cases heq : cmp es[row].userKey needle = .eq
    · rw [if_neg (not_not.2 heq), hmask row hrow, hrest]
      cases hq : q row with
      | true => simp [heq, hq]
      | false => simp [heq, hq, hdecode row hrow]
    · -- this row is above the needle, and so are those after it
      have hnone : ∀ x ∈ (es[row], row) :: es.zipIdx.drop (row + 1),
          ¬ (cmp x.1.userKey needle == .eq && !q x.2) = true := by
        intro x hx hmatch
        have hmem : x.1 ∈ es.drop row := by
          have hfst : (es.zipIdx.drop row).map Prod.fst = es.drop row := by
            rw [map_drop, zipIdx_map_fst]
          rw [← hfst, hdrop]
          exact mem_map_of_mem hx
        have htail := hsorted.sublist (drop_sublist row es)
        rw [drop_eq_getElem_cons hrow] at hmem htail
        have hle : cmp es[row].userKey x.1.userKey ≠ .gt := by
          rcases mem_cons.1 hmem with hx | hx
          · have hrefl : cmp es[row].userKey es[row].userKey = .eq := Std.ReflCmp.compare_self
            rw [hx, hrefl]
            decide
          · exact (pairwise_cons.1 htail).1 x.1 hx
        simp only [Bool.and_eq_true, beq_iff_eq] at hmatch
        rw [Std.TransCmp.congr_right hmatch.1] at hle
        cases hcmp : cmp es[row].userKey needle with
        | lt => exact hnot row hrow le_rfl hcmp
        | eq => exact heq hcmp
        | gt => exact hle hcmp
      rw [if_pos heq, filter_eq_nil_iff.2 hnone]
      rfl

theorem columnBatchMatchEntries_eq (h : b.columnBatchToEntries = some es) (hne : es ≠ [])
    (hsorted : es.Pairwise fun x y => cmp x.userKey y.userKey ≠ .gt)
    (hmask : ∀ i, i < es.length → masked i = some (q i)) :
    b.columnBatchMatchEntries cmp needle masked =
      some ((es.zipIdx.filter fun x => cmp x.1.userKey needle == .eq && !q x.2).map (·.1)) := by
  obtain ⟨hlen, -, hrows⟩ := columnBatchToEntries_eq_some h
  obtain ⟨p, hp, h⟩ := Option.bind_eq_some_iff.1 h
  obtain ⟨hcolumns, -, htag⟩ := validateColumnarColumns_eq_some hp
  obtain ⟨-, hdecode⟩ := Pointwise.mapM_range_iff.1 h
  have hkey : ∀ (i : ℕ) (hi : i < es.length),
      bytesColumnRow p.key.data b.rowCount i = some es[i].userKey := by
    intro i hi
    have := (hrows i hi).1
    rw [rowKey, hcolumns] at this
    simpa [Column.cell, htag] using this
  have hcount : b.rowCount ≠ 0 := by
    rw [← hlen]
    exact fun hzero => hne (length_eq_zero_iff.1 hzero)
  obtain ⟨below, hbelow⟩ : ∃ below : ℕ → Bool, ∀ i,
    below i = es[i]?.any fun e => cmp e.userKey needle == .lt := ⟨_, fun _ => rfl⟩
  have hat : ∀ (i : ℕ) (hi : i < es.length), below i = (cmp es[i].userKey needle == .lt) := by
    intro i hi
    rw [hbelow, getElem?_eq_getElem hi, Option.any_some]
  have hmono : ∀ i j, i ≤ j → j < es.length → below j = true → below i = true := by
    intro i j hij hj hlt
    rw [hat j hj, beq_iff_eq] at hlt
    rw [hat i (by omega), beq_iff_eq]
    rcases hij.eq_or_lt with rfl | hij
    · exact hlt
    · have hle := pairwise_iff_getElem.1 hsorted i j (by omega) hj hij
      exact Std.TransCmp.lt_of_isLE_of_lt (Ordering.isLE_iff_ne_gt.2 hle) hlt
  have hsearch : ∃ lo, SortedSearch.bisect (fun mid =>
      (bytesColumnRow p.key.data b.rowCount mid).map fun key => cmp key needle == .lt)
        b.rowCount 0 b.rowCount = some lo ∧ lo ≤ es.length ∧ (∀ i, i < lo → below i = true) ∧
      ∀ i, lo ≤ i → i < es.length → below i = false := by
    apply SortedSearch.bisect_spec _ hmono
    · omega
    · exact Nat.zero_le _
    · exact hlen.ge
    · omega
    · omega
    · intro i hi
      rw [hkey i hi, Option.map_some, hat i hi]
  obtain ⟨lo, hlo, hle, hbefore, hafter⟩ := hsearch
  have hnot : ∀ (i : ℕ) (hi : i < es.length), lo ≤ i → cmp es[i].userKey needle ≠ .lt := by
    intro i hi hge hlt
    have := hafter i hge hi
    rw [hat i hi, hlt] at this
    cases this
  have hfuel : lo + (b.rowCount - lo) = es.length := by omega
  -- the rows before the search result are below the needle
  have hskipped : (es.zipIdx.take lo).filter
      (fun x => cmp x.1.userKey needle == .eq && !q x.2) = [] := by
    apply filter_eq_nil_iff.2
    intro x hx hmatch
    obtain ⟨i, hi, rfl⟩ := mem_take_iff_getElem.1 hx
    rw [length_zipIdx] at hi
    have hlt := hbefore i (by omega)
    rw [hat i (by omega), beq_iff_eq] at hlt
    simp [hlt] at hmatch
  rw [columnBatchMatchEntries, hp]
  simp only [Option.bind_eq_bind, Option.bind_some, guard_eq_some hcount, hlo]
  rw [collectMatches_eq hsorted hkey hdecode hmask hfuel hnot]
  conv_rhs => rw [← take_append_drop lo es.zipIdx, filter_append, hskipped]
  rfl

end Spec

end Entries

end ColumnBatch

end LsmTree
