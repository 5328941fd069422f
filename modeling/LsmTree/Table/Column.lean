import LsmTree.Theory.BitSet
import LsmTree.Theory.Pointwise

/-! The columns of a columnar block. -/
namespace LsmTree

open Codec List Nat

inductive TypeTag where
  | fixed (width : Fin 256)
  | bytes
  deriving DecidableEq, Repr

structure Column where
  columnId : ℕ
  typeTag : TypeTag
  /-- one bit a row, if the column is nullable; a set bit is a value -/
  validity : Option Bytes
  data : Bytes
  deriving DecidableEq, Repr

section Rows

def bytesColumnRow (data : Bytes) (rowCount i : ℕ) : Option Bytes := do
  let (start, _) ← readAt (read 4) data (i * 4)
  let (stop, _) ← readAt (read 4) data ((i + 1) * 4)
  guard ((rowCount + 1) * 4 ≤ data.length)
  let payload := data.drop ((rowCount + 1) * 4)
  guard (start.val ≤ stop.val ∧ stop.val ≤ payload.length)
  pure (slice payload start stop)

/-- `bytes_row_slice`: the same row as a view of the whole buffer. -/
def bytesRowSlice (data : Bytes) (rowCount i : ℕ) : Option Bytes := do
  let (start, _) ← readAt (read 4) data (i * 4)
  let (stop, _) ← readAt (read 4) data ((i + 1) * 4)
  let payloadStart := (rowCount + 1) * 4 + start.val
  let payloadEnd := (rowCount + 1) * 4 + stop.val
  guard (start.val ≤ stop.val ∧ payloadEnd ≤ data.length)
  pure (slice data payloadStart payloadEnd)

def fixedColumnRow (data : Bytes) (width row : ℕ) : Option Bytes := do
  guard (row * width + width ≤ data.length)
  pure (slice data (row * width) (row * width + width))

/-- `encode_bytes_column`; an offset takes four bytes. -/
def offsetsFrom : ℕ → List Bytes → List ℕ
  | acc, [] => [acc]
  | acc, cell :: cells => acc :: offsetsFrom (acc + cell.length) cells

def bytesBody (cells : List Bytes) : Bytes :=
  (offsetsFrom 0 cells).flatMap (encodeLe 4) ++ cells.flatten

def encodeBytesColumn (cells : List Bytes) : Option Bytes :=
  if cells.flatten.length < 256 ^ 4 then some (bytesBody cells) else none

end Rows

section Checks

/-- `check_validity`: a byte for eight rows, and no bit set beyond the last row. -/
def checkValidity (v : Bytes) (rowCount : ℕ) : Bool :=
  decide (v.length = BitSet.size rowCount) &&
    (decide (rowCount % 8 = 0) ||
      decide ((v.getLast?.map Fin.val).getD 0 < 2 ^ (rowCount % 8)))

/-- The loop of `check_bytes_framing` over the offsets after the first. -/
def checkOffsets (payloadLen : ℕ) : ℕ → List ℕ → Bool
  | prev, [] => decide (prev = payloadLen)
  | prev, off :: offs =>
    decide (prev ≤ off) && decide (off ≤ payloadLen) && checkOffsets payloadLen off offs

def checkBytesFraming (data : Bytes) (rowCount : ℕ) : Bool :=
  match (repeatRead (read 4) (rowCount + 1)).run data with
  | some (first :: offs, payload) =>
    decide (first.val = 0) && checkOffsets payload.length first.val (offs.map Fin.val)
  | _ => false

def Column.validate (c : Column) (rowCount : ℕ) : Bool :=
  (match c.typeTag with
    | .fixed width => decide (width.val ≠ 0) && decide (c.data.length = rowCount * width.val)
    | .bytes => checkBytesFraming c.data rowCount) &&
  c.validity.all fun v => checkValidity v rowCount

end Checks

namespace Column

variable (c : Column) (rowCount row : ℕ)

/-- `column_cell` -/
def cell : Option Bytes :=
  match c.typeTag with
  | .fixed width => fixedColumnRow c.data width row
  | .bytes => bytesColumnRow c.data rowCount row

/-- `column_value_cell`: the cell of a row, if it is not null. -/
def valueCell : Option (Option Bytes) :=
  match c.validity with
  | none => (c.cell rowCount row).map some
  | some v => do
    let byte ← v[row / 8]?
    if byte.val.testBit (row % 8) then (c.cell rowCount row).map some else pure none

end Column

/-- `combine_validity`: without a bitmap all rows of a side are present. -/
def combineValidity (a : Option Bytes) (aRows : ℕ) (b : Option Bytes) (bRows : ℕ) : Option Bytes :=
  if a.isNone && b.isNone then none
  else some (BitSet.build (aRows + bRows) fun idx =>
    if idx < aRows then a.all (BitSet.testBit · idx) else b.all (BitSet.testBit · (idx - aRows)))

/-- The data of a column after the rows of `b` are appended to those of `a`. -/
def mergeData (aRows bRows : ℕ) (a b : Column) : Option Bytes :=
  match a.typeTag with
  | .fixed _ => some (a.data ++ b.data)
  | .bytes => do
    let cells ← (List.range aRows).mapM (bytesColumnRow a.data aRows)
    let cells' ← (List.range bRows).mapM (bytesColumnRow b.data bRows)
    encodeBytesColumn (cells ++ cells')

/-- The step of `append` for one column. -/
def mergeColumn (aRows bRows : ℕ) (a b : Column) : Option Column :=
  (mergeData aRows bRows a b).map fun data =>
    { a with data := data, validity := combineValidity a.validity aRows b.validity bRows }

section Cells

def Column.HasCells (c : Column) (cells : List Bytes) : Prop :=
  match c.typeTag with
  | .fixed width => 0 < width.val ∧ (∀ x ∈ cells, x.length = width.val) ∧ c.data = cells.flatten
  | .bytes => cells.flatten.length < 256 ^ 4 ∧ c.data = bytesBody cells

variable {cells : List Bytes} {i : ℕ}

theorem offsetsFrom_length (acc : ℕ) (cells : List Bytes) :
    (offsetsFrom acc cells).length = cells.length + 1 := by
  induction cells generalizing acc with
  | nil => rfl
  | cons cell cells ih => rw [offsetsFrom, length_cons, ih, length_cons]

theorem offsetsFrom_getElem? {acc : ℕ} (h : i ≤ cells.length) :
    (offsetsFrom acc cells)[i]? = some (acc + (cells.take i).flatten.length) := by
  induction cells generalizing acc i with
  | nil =>
    obtain rfl : i = 0 := le_zero.1 h
    rfl
  | cons cell cells ih =>
    cases i with
    | zero => rfl
    | succ i =>
      rw [offsetsFrom, getElem?_cons_succ, ih (le_of_succ_le_succ h), take_succ_cons,
        flatten_cons, length_append, add_assoc]

theorem flatten_eq_take (cells : List Bytes) (i : ℕ) :
    cells.flatten = (cells.take i).flatten ++ (cells.drop i).flatten := by
  rw [← flatten_append, take_append_drop]

theorem readAt_offset (hlen : cells.flatten.length < 256 ^ 4) (h : i ≤ cells.length) :
    ∃ off next, readAt (read 4) (bytesBody cells) (i * 4) = some (off, next) ∧
      off.val = (cells.take i).flatten.length := by
  have hlt : (cells.take i).flatten.length < 256 ^ 4 := by
    rw [flatten_eq_take cells i, length_append] at hlen
    omega
  have hat : At (bytesBody cells) 0 ((offsetsFrom 0 cells).flatMap (encodeLe 4)) := by
    rw [At, drop_zero]
    exact prefix_append _ _
  have hoff : (offsetsFrom 0 cells)[i]? = _ := offsetsFrom_getElem? h
  rw [zero_add] at hoff
  have hentry := At.flatMap (fun a => encodeLe_length 4 a) hat hoff
  rw [zero_add] at hentry
  exact ⟨⟨_, hlt⟩, _, (reads_encodeLe hlt).readAt hentry, rfl⟩

theorem bytesBody_length (cells : List Bytes) :
    (bytesBody cells).length = (cells.length + 1) * 4 + cells.flatten.length := by
  have htable : ((offsetsFrom 0 cells).flatMap (encodeLe 4)).length = (cells.length + 1) * 4 := by
    simp [length_flatMap, offsetsFrom_length]
  rw [bytesBody, length_append, htable]

theorem bytesBody_drop (cells : List Bytes) :
    (bytesBody cells).drop ((cells.length + 1) * 4) = cells.flatten := by
  have htable : ((offsetsFrom 0 cells).flatMap (encodeLe 4)).length = (cells.length + 1) * 4 := by
    simp [length_flatMap, offsetsFrom_length]
  rw [bytesBody, ← htable, drop_left]

theorem bytesColumnRow_bytesBody (hlen : cells.flatten.length < 256 ^ 4) (h : i < cells.length) :
    bytesColumnRow (bytesBody cells) cells.length i = some cells[i] := by
  obtain ⟨start, next, hstart, hstartVal⟩ := readAt_offset hlen h.le
  have hnext : i + 1 ≤ cells.length := h
  obtain ⟨stop, next', hstop, hstopVal⟩ := readAt_offset hlen hnext
  have hcell : (cells.take (i + 1)).flatten = (cells.take i).flatten ++ cells[i] := by
    rw [take_succ_eq_append_getElem h, flatten_append, flatten_singleton]
  have hat : At cells.flatten start.val cells[i] := by
    rw [flatten_eq_take cells (i + 1), hcell, hstartVal]
    exact at_append _ _ _
  have hend : stop.val = start.val + cells[i].length := by
    rw [hstopVal, hcell, length_append, hstartVal]
  have hle : stop.val ≤ cells.flatten.length := by
    rw [hstopVal, flatten_eq_take cells (i + 1), length_append]
    omega
  have hguard : (cells.length + 1) * 4 ≤ (bytesBody cells).length := by
    rw [bytesBody_length]
    omega
  simp only [bytesColumnRow, hstart, hstop, Option.bind_eq_bind, Option.bind_some,
    guard_eq_some hguard, bytesBody_drop]
  rw [guard_eq_some ⟨by omega, hle⟩, Option.bind_some, hend, hat.slice]
  rfl

theorem bytesRowSlice_eq (data : Bytes) (rowCount i : ℕ) :
    bytesRowSlice data rowCount i = bytesColumnRow data rowCount i := by
  rw [bytesRowSlice, bytesColumnRow]
  apply bind_congr
  rintro ⟨start, -⟩
  apply bind_congr
  rintro ⟨stop, -⟩
  obtain ⟨n, hn⟩ : ∃ n, n = (rowCount + 1) * 4 := ⟨_, rfl⟩
  simp only [← hn, length_drop]
  have hslice : slice data (n + start.val) (n + stop.val) = slice (data.drop n) start stop := by
    rw [slice, slice, drop_drop, Nat.add_sub_add_left]
  by_cases hin : start.val ≤ stop.val ∧ n + stop.val ≤ data.length
  · have hfit : n ≤ data.length := by omega
    have hpayload : start.val ≤ stop.val ∧ stop.val ≤ data.length - n := by omega
    rw [guard_eq_some hin, guard_eq_some hfit, guard_eq_some hpayload, hslice]
    rfl
  · have hnone : ∀ {c : Prop} [Decidable c], ¬ c → (guard c : Option Unit) = none :=
      fun hc => if_neg hc
    rw [hnone hin]
    by_cases hfit : n ≤ data.length
    · rw [guard_eq_some hfit, hnone (c := start.val ≤ stop.val ∧ stop.val ≤ data.length - n)
        (by omega)]
      rfl
    · rw [hnone hfit]
      rfl

theorem exists_cells_of_checkOffsets {payload : Bytes} {prev : ℕ} {offs : List ℕ}
    (hprev : prev ≤ payload.length) (h : checkOffsets payload.length prev offs = true) :
    ∃ cells : List Bytes, cells.length = offs.length ∧ offsetsFrom prev cells = prev :: offs ∧
      cells.flatten = payload.drop prev := by
  induction offs generalizing prev with
  | nil =>
    obtain rfl := of_decide_eq_true h
    exact ⟨[], rfl, rfl, by simp⟩
  | cons off offs ih =>
    simp only [checkOffsets, Bool.and_eq_true, decide_eq_true_eq] at h
    obtain ⟨⟨hle, hoff⟩, hrest⟩ := h
    obtain ⟨cells, hlen, hoffs, hflat⟩ := ih hoff hrest
    have hcell : (slice payload prev off).length = off - prev := by
      rw [slice, length_take, length_drop]
      omega
    refine ⟨slice payload prev off :: cells, by simp [hlen], ?_, ?_⟩
    · rw [offsetsFrom, hcell, Nat.add_sub_cancel' hle, hoffs]
    · rw [flatten_cons, hflat, slice]
      have hdrop : payload.drop off = (payload.drop prev).drop (off - prev) := by
        rw [drop_drop, Nat.add_sub_cancel' hle]
      rw [hdrop, take_append_drop]

theorem exists_cells_of_checkBytesFraming {data : Bytes} {rowCount : ℕ}
    (h : checkBytesFraming data rowCount = true) : ∃ cells : List Bytes,
      cells.length = rowCount ∧ cells.flatten.length < 256 ^ 4 ∧ data = bytesBody cells := by
  rw [checkBytesFraming] at h
  cases hrun : (repeatRead (read 4) (rowCount + 1)).run data with
  | none =>
    rw [hrun] at h
    cases h
  | some result =>
    obtain ⟨offsets, payload⟩ := result
    rw [hrun] at h
    cases offsets with
    | nil => cases h
    | cons first offs =>
      simp only [Bool.and_eq_true, decide_eq_true_eq] at h
      obtain ⟨hzero, hoffs⟩ := h
      have hcount := repeatRead_length hrun
      have hdata := repeatRead_eq_some (fun _ _ _ => read_eq_some) hrun
      rw [length_cons, add_right_cancel_iff] at hcount
      rw [hzero] at hoffs
      obtain ⟨cells, hlen, htable, hflat⟩ := exists_cells_of_checkOffsets (zero_le _) hoffs
      have htable' : offsetsFrom 0 cells = (first :: offs).map Fin.val := by
        rw [htable, map_cons, hzero]
      rw [length_map, hcount] at hlen
      rw [drop_zero] at hflat
      refine ⟨cells, hlen, ?_, ?_⟩
      · -- the last offset is the length of the payload, and it was read from four bytes
        have hlast : (offsetsFrom 0 cells)[cells.length]? = _ := offsetsFrom_getElem? le_rfl
        rw [htable', getElem?_map, zero_add, take_length] at hlast
        obtain ⟨off, -, hoff⟩ := Option.map_eq_some_iff.1 hlast
        rw [← hoff]
        exact off.isLt
      · rw [hdata, bytesBody, htable', hflat, flatMap_map]
        rfl

theorem exists_cells_of_length {width rowCount : ℕ} {data : Bytes}
    (h : data.length = rowCount * width) : ∃ cells : List Bytes,
      cells.length = rowCount ∧ (∀ x ∈ cells, x.length = width) ∧ data = cells.flatten := by
  induction rowCount generalizing data with
  | zero => exact ⟨[], rfl, by simp, by simpa using h⟩
  | succ n ih =>
    rw [succ_mul] at h
    obtain ⟨cells, hlen, hwidth, hdata⟩ := @ih (data.drop width) (by simp [h])
    refine ⟨data.take width :: cells, by simp [hlen], ?_, ?_⟩
    · exact forall_mem_cons.2 ⟨by simp [h], hwidth⟩
    · rw [flatten_cons, ← hdata, take_append_drop]

theorem fixedColumnRow_flatten {width : ℕ} (hwidth : ∀ x ∈ cells, x.length = width)
    (h : i < cells.length) : fixedColumnRow cells.flatten width i = some cells[i] := by
  have hoff : ∀ n, n ≤ cells.length → (cells.take n).flatten.length = n * width := by
    intro n hn
    have hall : ∀ x ∈ (cells.take n).map List.length, x = width := by
      intro x hx
      obtain ⟨cell, hcell, rfl⟩ := mem_map.1 hx
      exact hwidth cell (mem_of_mem_take hcell)
    rw [length_flatten, eq_replicate_of_mem hall]
    simp [min_eq_left hn]
  have hcell : (cells.take (i + 1)).flatten = (cells.take i).flatten ++ cells[i] := by
    rw [take_succ_eq_append_getElem h, flatten_append, flatten_singleton]
  have hat : At cells.flatten (i * width) cells[i] := by
    rw [flatten_eq_take cells (i + 1), hcell, ← hoff i h.le]
    exact at_append _ _ _
  have hlen : cells[i].length = width := hwidth _ (getElem_mem h)
  have hfit : i * width + width ≤ cells.flatten.length := by
    have := hoff (i + 1) h
    rw [flatten_eq_take cells (i + 1), length_append, this, succ_mul]
    omega
  have hslice := hat.slice
  rw [hlen] at hslice
  rw [fixedColumnRow, guard_eq_some hfit, hslice]
  rfl

namespace Column

variable {c a b m : Column} {aRows bRows : ℕ}

theorem exists_cells (h : c.validate aRows = true) :
    ∃ cells, cells.length = aRows ∧ c.HasCells cells := by
  rw [validate, Bool.and_eq_true] at h
  cases htag : c.typeTag with
  | fixed width =>
    simp only [htag, Bool.and_eq_true, decide_eq_true_eq] at h
    obtain ⟨cells, hlen, hwidth, hdata⟩ := exists_cells_of_length h.1.2
    simp only [HasCells, htag]
    exact ⟨cells, hlen, pos_of_ne_zero h.1.1, hwidth, hdata⟩
  | bytes =>
    simp only [htag] at h
    simp only [HasCells, htag]
    exact exists_cells_of_checkBytesFraming h.1

theorem HasCells.cell_eq (h : c.HasCells cells) (hi : i < cells.length) :
    c.cell cells.length i = some cells[i] := by
  rw [HasCells] at h
  rw [cell]
  cases htag : c.typeTag with
  | fixed width =>
    simp only [htag] at h
    rw [h.2.2]
    exact fixedColumnRow_flatten h.2.1 hi
  | bytes =>
    simp only [htag] at h
    rw [h.2]
    exact bytesColumnRow_bytesBody h.1 hi

theorem validity_length (h : c.validate aRows = true) {v : Bytes} (hv : c.validity = some v) :
    v.length = BitSet.size aRows := by
  rw [validate, Bool.and_eq_true, hv, Option.all_some, checkValidity, Bool.and_eq_true] at h
  exact of_decide_eq_true h.2.1

theorem valueCell_eq (h : ∀ v, c.validity = some v → v.length = BitSet.size aRows)
    (hi : i < aRows) :
    c.valueCell aRows i = if c.validity.all (BitSet.testBit · i)
      then (c.cell aRows i).map some else some none := by
  rw [valueCell]
  cases hv : c.validity with
  | none => rfl
  | some v =>
    have hlen := h v hv
    rw [BitSet.size] at hlen
    have hbyte : i / 8 < v.length := by omega
    simp [BitSet.testBit, hbyte]

theorem combineValidity_isSome (a : Option Bytes) (b : Option Bytes) :
    (combineValidity a aRows b bRows).isSome = (a.isSome || b.isSome) := by
  cases a <;> cases b <;> rfl

theorem combineValidity_length {a b : Option Bytes} {v : Bytes}
    (h : combineValidity a aRows b bRows = some v) : v.length = BitSet.size (aRows + bRows) := by
  rw [combineValidity] at h
  split_ifs at h
  obtain rfl := Option.some.inj h
  exact BitSet.build_length _ _

theorem combineValidity_all (a b : Option Bytes) (hi : i < aRows + bRows) :
    (combineValidity a aRows b bRows).all (BitSet.testBit · i) =
      if i < aRows then a.all (BitSet.testBit · i) else b.all (BitSet.testBit · (i - aRows)) := by
  by_cases hnone : a.isNone && b.isNone
  · rw [combineValidity, if_pos hnone]
    rw [Bool.and_eq_true, Option.isNone_iff_eq_none, Option.isNone_iff_eq_none] at hnone
    rw [hnone.1, hnone.2]
    split <;> rfl
  · rw [combineValidity, if_neg hnone, Option.all_some, BitSet.testBit_build]
    simp [hi]

theorem mergeColumn_hasCells {as bs : List Bytes} (ha : a.HasCells as) (hb : b.HasCells bs)
    (htag : a.typeTag = b.typeTag) (h : mergeColumn as.length bs.length a b = some m) :
    m.HasCells (as ++ bs) := by
  obtain ⟨data, hdata, rfl⟩ := Option.map_eq_some_iff.1 h
  rw [mergeData] at hdata
  cases htag' : a.typeTag with
  | fixed width =>
    simp only [HasCells, htag', ← htag] at ha hb hdata ⊢
    obtain rfl := Option.some.inj hdata
    refine ⟨ha.1, fun x hx => ?_, by rw [ha.2.2, hb.2.2, flatten_append]⟩
    rcases mem_append.1 hx with hx | hx
    · exact ha.2.1 x hx
    · exact hb.2.1 x hx
  | bytes =>
    simp only [HasCells, htag', ← htag] at ha hb hdata ⊢
    have has := Pointwise.mapM_range_iff.2 ⟨rfl, fun i hi => bytesColumnRow_bytesBody ha.1 hi⟩
    have hbs := Pointwise.mapM_range_iff.2 ⟨rfl, fun i hi => bytesColumnRow_bytesBody hb.1 hi⟩
    rw [ha.2, hb.2, has, hbs] at hdata
    change encodeBytesColumn (as ++ bs) = some data at hdata
    rw [encodeBytesColumn] at hdata
    split_ifs at hdata with hlen
    exact ⟨hlen, (Option.some.inj hdata).symm⟩

theorem mergeColumn_rows (ha : a.validate aRows = true) (hb : b.validate bRows = true)
    (htag : a.typeTag = b.typeTag) (h : mergeColumn aRows bRows a b = some m) :
    (∀ i, i < aRows → m.cell (aRows + bRows) i = a.cell aRows i ∧
      m.valueCell (aRows + bRows) i = a.valueCell aRows i) ∧
    ∀ i, i < bRows → m.cell (aRows + bRows) (aRows + i) = b.cell bRows i ∧
      m.valueCell (aRows + bRows) (aRows + i) = b.valueCell bRows i := by
  have hva : ∀ v, a.validity = some v → v.length = BitSet.size aRows :=
    fun v hv => validity_length ha hv
  have hvb : ∀ v, b.validity = some v → v.length = BitSet.size bRows :=
    fun v hv => validity_length hb hv
  obtain ⟨as, rfl, has⟩ := exists_cells ha
  obtain ⟨bs, rfl, hbs⟩ := exists_cells hb
  have hm := mergeColumn_hasCells has hbs htag h
  have hvalidity : m.validity = combineValidity a.validity as.length b.validity bs.length := by
    obtain ⟨data, -, rfl⟩ := Option.map_eq_some_iff.1 h
    rfl
  have hvm : ∀ v, m.validity = some v → v.length = BitSet.size (as.length + bs.length) :=
    fun v hv => combineValidity_length (hvalidity ▸ hv)
  have hcell : ∀ i (hi : i < as.length + bs.length),
      m.cell (as.length + bs.length) i = (as ++ bs)[i]? := by
    intro i hi
    rw [← length_append] at hi ⊢
    rw [hm.cell_eq hi, getElem?_eq_getElem hi]
  constructor
  · intro i hi
    have hlt : i < as.length + bs.length := by omega
    have hsame : m.cell (as.length + bs.length) i = a.cell as.length i := by
      rw [hcell i hlt, has.cell_eq hi, getElem?_append_left hi, getElem?_eq_getElem hi]
    refine ⟨hsame, ?_⟩
    rw [valueCell_eq hvm hlt, valueCell_eq hva hi, hvalidity, combineValidity_all _ _ hlt,
      if_pos hi, hsame]
  · intro i hi
    have hlt : as.length + i < as.length + bs.length := by omega
    have hnot : ¬ as.length + i < as.length := by omega
    have hsame : m.cell (as.length + bs.length) (as.length + i) = b.cell bs.length i := by
      rw [hcell _ hlt, hbs.cell_eq hi, getElem?_append_right (by omega),
        Nat.add_sub_cancel_left, getElem?_eq_getElem hi]
    refine ⟨hsame, ?_⟩
    rw [valueCell_eq hvm hlt, valueCell_eq hvb hi, hvalidity, combineValidity_all _ _ hlt,
      if_neg hnot, Nat.add_sub_cancel_left, hsame]

theorem mergeColumn_layout (h : mergeColumn aRows bRows a b = some m) :
    m.columnId = a.columnId ∧ m.typeTag = a.typeTag ∧
      m.validity.isSome = (a.validity.isSome || b.validity.isSome) := by
  obtain ⟨data, -, rfl⟩ := Option.map_eq_some_iff.1 h
  exact ⟨rfl, rfl, combineValidity_isSome _ _⟩

end Column

end Cells

end LsmTree
