import LsmTree.Theory.DoubleEnded

/-! The decoder of a block. The front cursor walks the items; the back cursor can only enter an
interval at its head, so it walks one interval at a time and keeps a stack of offsets. -/
namespace LsmTree

open DoubleEnded List Nat

structure SliceIndexes where
  start : ℕ
  stop : ℕ
  deriving DecidableEq, Repr

structure Parsed (α : Type*) where
  item : α
  key : SliceIndexes
  next : ℕ
  deriving DecidableEq, Repr

/-- What a decoder uses of a block: its layout fields, and the parsers of its item type
(`Decodable`). -/
structure EncodedBlock (α κ : Type*) where
  len : ℕ
  entriesEnd : ℕ
  restartInterval : ℕ
  binaryIndex : List ℕ
  /-- The buckets of the hash index; none when the block has no hash index. -/
  hashIndex : List (Fin 256)
  parseRestartKey : ℕ → Option κ
  parseFull : ℕ → Option (Parsed α)
  parseTruncated : ℕ → SliceIndexes → Option (Parsed α)

structure LoScanner where
  offset : ℕ
  remainingInInterval : ℕ
  baseKey : Option SliceIndexes
  deriving DecidableEq, Repr

/-- `ptrIdx` is `none` (`usize::MAX` in the source) once the first interval is behind; the top of
the stack comes first. -/
structure HiScanner where
  offset : ℕ
  ptrIdx : Option ℕ
  stack : List ℕ
  baseKey : Option SliceIndexes
  deriving DecidableEq, Repr

structure Decoder (α κ : Type*) where
  block : EncodedBlock α κ
  lo : LoScanner
  hi : HiScanner

variable {α κ : Type*}

def EncodedBlock.parseCurrentItem (b : EncodedBlock α κ) (offset : ℕ) (baseKey : Option SliceIndexes)
    (isRestart : Bool) : Option (Parsed α) :=
  if isRestart then b.parseFull offset else baseKey.bind (b.parseTruncated offset)

namespace Decoder

/-- `from_meta` -/
def new (b : EncodedBlock α κ) : Decoder α κ where
  block := b
  lo := ⟨0, 0, none⟩
  hi := ⟨0, some b.binaryIndex.length, [], none⟩

variable (d : Decoder α κ)

def next : Option α × Decoder α κ :=
  if d.block.len ≤ d.lo.offset then (none, d)
  else if d.hi.baseKey.isSome ∧ d.hi.offset ≤ d.lo.offset then (none, d)
  else
    let isRestart := d.lo.remainingInInterval == 0
    match d.block.parseCurrentItem d.lo.offset d.lo.baseKey isRestart with
    | some p =>
      (some p.item, { d with lo :=
        if isRestart then ⟨p.next, d.block.restartInterval - 1, some p.key⟩
        else ⟨p.next, d.lo.remainingInInterval - 1, d.lo.baseKey⟩ })
    | none => (none, { d with lo := ⟨d.block.len, 0, none⟩ })

/-- `clamp_upper_to_lo`, `poison_back_cursor` -/
def clampUpperToLo : Decoder α κ := { d with hi := ⟨d.lo.offset, none, [], some ⟨0, 0⟩⟩ }

/-- `none` when an item cannot be read. -/
def fillFrom (b : EncodedBlock α κ) (baseKey : SliceIndexes) : ℕ → ℕ → List ℕ → Option (ℕ × List ℕ)
  | 0, offset, stack => some (offset, stack)
  | left + 1, offset, stack =>
    if b.len ≤ offset then none
    else
      match b.parseTruncated offset baseKey with
      | some p => fillFrom b baseKey left p.next (offset :: stack)
      | none => if offset < b.entriesEnd then none else some (offset, stack)

def fillStack : Decoder α κ :=
  match d.hi.ptrIdx.bind (d.block.binaryIndex[·]?) with
  | none => { d with hi := { d.hi with stack := [], baseKey := none } }
  | some offset =>
    if d.block.len ≤ offset then d.clampUpperToLo
    else
      match d.block.parseFull offset with
      | none => d.clampUpperToLo
      | some p =>
        match fillFrom d.block p.key (d.block.restartInterval - 1) p.next [offset] with
        | none => d.clampUpperToLo
        | some (stop, stack) => { d with hi := ⟨stop, d.hi.ptrIdx, stack, some p.key⟩ }

def consumeStackTop : Option α × Decoder α κ :=
  match d.hi.stack with
  | [] => (none, d)
  | offset :: stack =>
    if 0 < d.lo.offset ∧ offset < d.lo.offset then
      (none, { d with hi := { d.hi with stack := stack } })
    else
      let d' : Decoder α κ := { d with hi := { d.hi with stack := stack, offset := offset } }
      if d.block.len ≤ offset then (none, d')
      else
        ((d.block.parseCurrentItem offset d.hi.baseKey stack.isEmpty).map Parsed.item, d')

def nextBack : Option α × Decoder α κ :=
  match d.consumeStackTop with
  | (some a, d') => (some a, d')
  | (none, d') =>
    match d'.hi.ptrIdx with
    | none => (none, d')
    | some 0 => (none, { d' with hi := { d'.hi with ptrIdx := none } })
    | some (idx + 1) =>
      ({ d' with hi := { d'.hi with ptrIdx := some idx } } : Decoder α κ).fillStack.consumeStackTop

instance : Iter (Decoder α κ) α where
  next := next
  nextBack := nextBack
  bound d := d.block.entriesEnd

end Decoder

/-- Item `i` lies at `off i`, the head of interval `j` is item `j * restartInterval`, and its key
lies at `span j`. -/
structure Layout (b : EncodedBlock α κ) (head : α → κ) (items : List α) where
  off : ℕ → ℕ
  span : ℕ → SliceIndexes
  items_pos : 0 < items.length
  interval_pos : 0 < b.restartInterval
  off_zero : off 0 = 0
  off_lt : ∀ i, i < items.length → off i < off (i + 1)
  off_end : off items.length = b.entriesEnd
  end_lt : b.entriesEnd < b.len
  index_length : ∀ j, j < b.binaryIndex.length ↔ j * b.restartInterval < items.length
  index_get : ∀ j, j * b.restartInterval < items.length →
    b.binaryIndex[j]? = some (off (j * b.restartInterval))
  full : ∀ j a, items[j * b.restartInterval]? = some a →
    b.parseFull (off (j * b.restartInterval)) =
      some ⟨a, span j, off (j * b.restartInterval + 1)⟩
  truncated : ∀ j r a, 0 < r → r < b.restartInterval →
    items[j * b.restartInterval + r]? = some a →
    ∃ key, b.parseTruncated (off (j * b.restartInterval + r)) (span j) =
      some ⟨a, key, off (j * b.restartInterval + r + 1)⟩
  restartKey : ∀ j a, items[j * b.restartInterval]? = some a →
    b.parseRestartKey (off (j * b.restartInterval)) = some (head a)
  full_end : b.parseFull b.entriesEnd = none
  truncated_end : ∀ base, b.parseTruncated b.entriesEnd base = none

namespace Layout

variable {b : EncodedBlock α κ} {head : α → κ} {items : List α} (L : Layout b head items)

theorem off_lt_off {i j : ℕ} (hij : i < j) (hj : j ≤ items.length) : L.off i < L.off j := by
  induction j with
  | zero => exact absurd hij (not_lt_zero i)
  | succ j ih =>
    have hstep := L.off_lt j hj
    rcases Nat.lt_succ_iff_lt_or_eq.1 hij with hlt | rfl
    · exact (ih hlt (by omega)).trans hstep
    · exact hstep

theorem off_le_off {i j : ℕ} (hij : i ≤ j) (hj : j ≤ items.length) : L.off i ≤ L.off j := by
  rcases hij.lt_or_eq with hlt | rfl
  · exact (L.off_lt_off hlt hj).le
  · exact le_rfl

theorem off_lt_len {i : ℕ} (hi : i ≤ items.length) : L.off i < b.len := by
  have hle := L.off_le_off hi le_rfl
  have hend := L.off_end
  have hlen := L.end_lt
  omega

theorem le_off {i : ℕ} (hi : i ≤ items.length) : i ≤ L.off i := by
  induction i with
  | zero => exact zero_le _
  | succ i ih =>
    have hstep := L.off_lt i hi
    have hle := ih (by omega)
    omega

theorem parse_end (base : Option SliceIndexes) (isRestart : Bool) :
    b.parseCurrentItem (L.off items.length) base isRestart = none := by
  rw [L.off_end]
  unfold EncodedBlock.parseCurrentItem
  cases isRestart with
  | true => exact L.full_end
  | false =>
    cases base with
    | none => rfl
    | some base => exact L.truncated_end base

theorem parse_item {j r : ℕ} {a : α} {base : Option SliceIndexes} (hr : r < b.restartInterval)
    (ha : items[j * b.restartInterval + r]? = some a) (hbase : 0 < r → base = some (L.span j)) :
    ∃ key, b.parseCurrentItem (L.off (j * b.restartInterval + r)) base (r == 0) =
        some ⟨a, key, L.off (j * b.restartInterval + r + 1)⟩ ∧ (r = 0 → key = L.span j) := by
  rcases Nat.eq_zero_or_pos r with rfl | hpos
  · exact ⟨L.span j, L.full j a ha, fun _ => rfl⟩
  · obtain ⟨key, hkey⟩ := L.truncated j r a hpos hr ha
    refine ⟨key, ?_, fun h0 => absurd h0 (by omega)⟩
    have hne : (r == 0) = false := by simpa using (by omega : r ≠ 0)
    rw [EncodedBlock.parseCurrentItem, hne, hbase hpos]
    exact hkey

def stack (i : ℕ) : ℕ → List ℕ
  | 0 => []
  | n + 1 => L.off (i + n) :: stack i n

theorem mem_stack {i n o : ℕ} : o ∈ L.stack i n ↔ ∃ k, k < n ∧ o = L.off (i + k) := by
  induction n with
  | zero => simp [stack]
  | succ n ih =>
    rw [stack, mem_cons, ih]
    constructor
    · rintro (rfl | ⟨k, hk, rfl⟩)
      · exact ⟨n, lt_succ_self n, rfl⟩
      · exact ⟨k, by omega, rfl⟩
    · rintro ⟨k, hk, rfl⟩
      rcases Nat.lt_succ_iff_lt_or_eq.1 hk with hlt | rfl
      · exact .inr ⟨k, hlt, rfl⟩
      · exact .inl rfl

theorem stack_isEmpty (i n : ℕ) : (L.stack i n).isEmpty = (n == 0) := by
  cases n <;> rfl

structure LoAt (lo : LoScanner) (j r : ℕ) : Prop where
  lt : r < b.restartInterval
  offset : lo.offset = L.off (j * b.restartInterval + r)
  remaining : lo.remainingInInterval = if r = 0 then 0 else b.restartInterval - r
  baseKey : 0 < r → lo.baseKey = some (L.span j)

structure HiAt (hi : HiScanner) (j r : ℕ) : Prop where
  le : r ≤ b.restartInterval
  head_lt : j * b.restartInterval < items.length
  le_length : j * b.restartInterval + r ≤ items.length
  offset : hi.offset = L.off (j * b.restartInterval + r)
  ptrIdx : hi.ptrIdx = some j
  stack : hi.stack = L.stack (j * b.restartInterval) r
  baseKey : hi.baseKey = some (L.span j)

/-- All that the back cursor can still reach lies before the front one. -/
structure Behind (lo : LoScanner) (hi : HiScanner) : Prop where
  stack : ∀ o ∈ hi.stack, o < lo.offset
  ptr_le : ∀ j, hi.ptrIdx = some j → j ≤ b.binaryIndex.length
  reach : ∀ j, hi.ptrIdx = some j →
    ∀ i, i ≤ j * b.restartInterval → i ≤ items.length → L.off i ≤ lo.offset

/-- The cursors have met, or the front one has run off the block. -/
structure Spent (lo : LoScanner) (hi : HiScanner) : Prop extends L.Behind lo hi where
  front : b.len ≤ lo.offset ∨ hi.baseKey.isSome ∧ hi.offset ≤ lo.offset

def FrontAt (lo : LoScanner) (a : ℕ) : Prop :=
  ∃ j r, a = j * b.restartInterval + r ∧ L.LoAt lo j r

def Fresh (_ : Layout b head items) (hi : HiScanner) : Prop :=
  hi.ptrIdx = some b.binaryIndex.length ∧ hi.stack = [] ∧ hi.baseKey = none

def BackAt (hi : HiScanner) (e : ℕ) : Prop :=
  L.Fresh hi ∧ e = items.length ∨ ∃ j r, e = j * b.restartInterval + r ∧ L.HiAt hi j r

variable {L} {lo : LoScanner} {hi : HiScanner} {j r : ℕ}

theorem LoAt.remaining_beq (h : L.LoAt lo j r) : (lo.remainingInInterval == 0) = (r == 0) := by
  have hlt := h.lt
  rw [h.remaining]
  split_ifs with hr
  · rw [hr]
  · have hne : b.restartInterval - r ≠ 0 := by omega
    simp [hr, hne]

theorem FrontAt.offset {a : ℕ} (h : L.FrontAt lo a) : lo.offset = L.off a := by
  obtain ⟨j, r, rfl, h⟩ := h
  exact h.offset

theorem LoAt.advance {next : ℕ} {key : SliceIndexes} (h : L.LoAt lo j r)
    (hnext : next = L.off (j * b.restartInterval + r + 1)) (hkey : r = 0 → key = L.span j) :
    L.FrontAt (if lo.remainingInInterval == 0 then ⟨next, b.restartInterval - 1, some key⟩
      else ⟨next, lo.remainingInInterval - 1, lo.baseKey⟩) (j * b.restartInterval + r + 1) := by
  have hlt := h.lt
  have hrem := h.remaining
  rw [h.remaining_beq]
  by_cases hlast : r + 1 = b.restartInterval
  · have hhead : j * b.restartInterval + r + 1 = (j + 1) * b.restartInterval + 0 := by
      rw [succ_mul]
      omega
    rw [hhead] at hnext ⊢
    refine ⟨j + 1, 0, rfl, ⟨by omega, ?_, ?_, nofun⟩⟩
    · rw [hnext]
      split_ifs <;> rfl
    · by_cases hr : r = 0
      · simp only [hr, BEq.rfl, if_true]
        omega
      · simp only [hr, beq_iff_eq, if_false, if_true, hrem]
        omega
  · refine ⟨j, r + 1, rfl, ⟨by omega, ?_, ?_, fun _ => ?_⟩⟩
    · rw [hnext]
      split_ifs <;> rfl
    · by_cases hr : r = 0
      · simp [hr]
      · simp only [hr, beq_iff_eq, if_false, hrem, succ_ne_zero]
        omega
    · by_cases hr : r = 0
      · simp [hr, hkey hr]
      · simp [hr, h.baseKey (by omega)]

theorem Behind.pop (h : L.Behind lo hi) : L.Behind lo { hi with stack := hi.stack.tail } :=
  ⟨fun o ho => h.stack o (mem_of_mem_tail ho), h.ptr_le, h.reach⟩

theorem Spent.pop (h : L.Spent lo hi) : L.Spent lo { hi with stack := hi.stack.tail } :=
  ⟨h.toBehind.pop, h.front⟩

theorem HiAt.ptr_lt (h : L.HiAt hi j r) : j < b.binaryIndex.length :=
  (L.index_length j).2 h.head_lt

theorem HiAt.spent (h : L.HiAt hi j r) (hlo : L.off (j * b.restartInterval + r) ≤ lo.offset) :
    L.Spent lo hi where
  stack o ho := by
    rw [h.stack] at ho
    obtain ⟨k, hk, rfl⟩ := L.mem_stack.1 ho
    exact (L.off_lt_off (by omega) h.le_length).trans_le hlo
  ptr_le i hi := by
    rw [h.ptrIdx] at hi
    exact Option.some.inj hi ▸ h.ptr_lt.le
  reach i hi k hk _ := by
    rw [h.ptrIdx] at hi
    obtain rfl := Option.some.inj hi
    exact (L.off_le_off (by omega) h.le_length).trans hlo
  front := .inr ⟨by rw [h.baseKey]; rfl, h.offset ▸ hlo⟩

theorem exists_last (L : Layout b head items) : ∃ j, b.binaryIndex.length = j + 1 ∧
    j * b.restartInterval < items.length ∧
    items.length ≤ j * b.restartInterval + b.restartInterval := by
  have hzero : 0 < b.binaryIndex.length := (L.index_length 0).2 (by simpa using L.items_pos)
  have hlast := (L.index_length (b.binaryIndex.length - 1)).1 (by omega)
  have hpast := mt (L.index_length b.binaryIndex.length).2 (lt_irrefl _)
  have hsucc := succ_mul (b.binaryIndex.length - 1) b.restartInterval
  rw [Nat.succ_eq_add_one, Nat.sub_add_cancel hzero] at hsucc
  exact ⟨b.binaryIndex.length - 1, by omega, hlast, by omega⟩

theorem Fresh.behind (h : L.Fresh hi) (hlo : lo.offset = L.off items.length ∨ b.len ≤ lo.offset) :
    L.Behind lo hi where
  stack o ho := by
    rw [h.2.1] at ho
    exact nomatch ho
  ptr_le j hj := by
    rw [h.1] at hj
    exact (Option.some.inj hj).ge
  reach j _ i _ hi := by
    have hle := L.off_le_off hi le_rfl
    have hlen := L.off_lt_len (le_refl items.length)
    omega

end Layout

namespace Decoder

variable {b : EncodedBlock α κ} {head : α → κ} {items : List α} {d : Decoder α κ}
  (L : Layout d.block head items) {j r : ℕ}

section Front

theorem next_item {i : ℕ} {a : α} (h : L.FrontAt d.lo i) (ha : items[i]? = some a)
    (hhi : ¬(d.hi.baseKey.isSome ∧ d.hi.offset ≤ d.lo.offset)) :
    ∃ lo, d.next = (some a, { d with lo := lo }) ∧ L.FrontAt lo (i + 1) := by
  obtain ⟨hlen, -⟩ := List.getElem?_eq_some_iff.1 ha
  have hin : ¬d.block.len ≤ d.lo.offset := h.offset ▸ not_le.2 (L.off_lt_len hlen.le)
  obtain ⟨j, r, rfl, h⟩ := h
  obtain ⟨key, hparse, hkey⟩ := L.parse_item h.lt ha h.baseKey
  refine ⟨_, ?_, h.advance rfl hkey⟩
  rw [← h.offset, ← h.remaining_beq] at hparse
  unfold next
  rw [if_neg hin, if_neg hhi]
  simp only [hparse]

theorem next_end (h : L.FrontAt d.lo items.length)
    (hhi : ¬(d.hi.baseKey.isSome ∧ d.hi.offset ≤ d.lo.offset)) :
    d.next = (none, { d with lo := ⟨d.block.len, 0, none⟩ }) := by
  have hin : ¬d.block.len ≤ d.lo.offset := h.offset ▸ not_le.2 (L.off_lt_len le_rfl)
  unfold next
  rw [if_neg hin, if_neg hhi]
  simp only [h.offset, L.parse_end]

end Front

section Back

theorem fillFrom_spec {left : ℕ} (hr : 0 < r) (hleft : r + left = d.block.restartInterval)
    (hle : j * d.block.restartInterval + r ≤ items.length) :
    ∃ e, fillFrom d.block (L.span j) left (L.off (j * d.block.restartInterval + r))
        (L.stack (j * d.block.restartInterval) r) =
          some (L.off (j * d.block.restartInterval + e),
            L.stack (j * d.block.restartInterval) e) ∧
      e = min d.block.restartInterval (items.length - j * d.block.restartInterval) := by
  induction left generalizing r with
  | zero => exact ⟨r, rfl, by omega⟩
  | succ left ih =>
    have hin := not_le.2 (L.off_lt_len hle)
    rw [fillFrom, if_neg hin]
    rcases hle.lt_or_eq with hlt | hend
    · obtain ⟨key, hkey⟩ := L.truncated j r _ hr (by omega) (getElem?_eq_getElem hlt)
      rw [hkey]
      exact ih (succ_pos r) (by omega) hlt
    · rw [hend, L.off_end, L.truncated_end]
      refine ⟨r, ?_, by omega⟩
      simp [hend, L.off_end]

theorem fillStack_spec (hptr : d.hi.ptrIdx = some j)
    (hj : j * d.block.restartInterval < items.length) :
    ∃ hi, d.fillStack = { d with hi := hi } ∧
      L.HiAt hi j (min d.block.restartInterval (items.length - j * d.block.restartInterval)) := by
  have hpos := L.interval_pos
  have hin := not_le.2 (L.off_lt_len hj.le)
  have hfull := L.full j _ (getElem?_eq_getElem hj)
  obtain ⟨e, hfill, he⟩ := fillFrom_spec L (j := j) Nat.one_pos
    (show 1 + (d.block.restartInterval - 1) = d.block.restartInterval by omega) hj
  have hfill' : fillFrom d.block (L.span j) (d.block.restartInterval - 1)
      (L.off (j * d.block.restartInterval + 1)) [L.off (j * d.block.restartInterval)] =
        some (L.off (j * d.block.restartInterval + e),
          L.stack (j * d.block.restartInterval) e) := hfill
  rw [← he]
  refine ⟨⟨L.off (j * d.block.restartInterval + e), some j,
    L.stack (j * d.block.restartInterval) e, some (L.span j)⟩, ?_,
    ⟨by omega, hj, by omega, rfl, rfl, rfl, rfl⟩⟩
  unfold fillStack
  simp only [hptr, Option.bind_some, L.index_get j hj, if_neg hin, hfull, hfill']

theorem consumeStackTop_item {a : α} (h : L.HiAt d.hi j (r + 1))
    (ha : items[j * d.block.restartInterval + r]? = some a)
    (hlo : d.lo.offset ≤ L.off (j * d.block.restartInterval + r)) :
    ∃ hi, d.consumeStackTop = (some a, { d with hi := hi }) ∧ L.HiAt hi j r := by
  obtain ⟨hlen, -⟩ := List.getElem?_eq_some_iff.1 ha
  have hin := not_le.2 (L.off_lt_len hlen.le)
  have hle := h.le
  have hcross : ¬(0 < d.lo.offset ∧ L.off (j * d.block.restartInterval + r) < d.lo.offset) := by
    omega
  obtain ⟨key, hparse, -⟩ := L.parse_item (by omega) ha fun _ => h.baseKey
  refine ⟨{ d.hi with
    stack := L.stack (j * d.block.restartInterval) r
    offset := L.off (j * d.block.restartInterval + r) }, ?_,
    ⟨by omega, h.head_lt, hlen.le, rfl, h.ptrIdx, rfl, h.baseKey⟩⟩
  have hstack : d.hi.stack = L.off (j * d.block.restartInterval + r) ::
      L.stack (j * d.block.restartInterval) r := h.stack
  unfold consumeStackTop
  simp only [hstack, if_neg hcross, if_neg hin, L.stack_isEmpty, hparse, Option.map_some]

theorem consumeStackTop_below (h : ∀ o ∈ d.hi.stack, o < d.lo.offset) :
    d.consumeStackTop = (none, { d with hi := { d.hi with stack := d.hi.stack.tail } }) := by
  unfold consumeStackTop
  cases hstack : d.hi.stack with
  | nil =>
    have hsame : ({ d.hi with stack := [] } : HiScanner) = d.hi := by rw [← hstack]
    rw [tail_nil, hsame]
  | cons o stack =>
    have ho : o < d.lo.offset := h o (by rw [hstack]; exact mem_cons_self)
    have hcross : 0 < d.lo.offset ∧ o < d.lo.offset := ⟨by omega, ho⟩
    simp only [if_pos hcross, tail_cons]

theorem nextBack_enter {a : α} (hstack : d.hi.stack = []) (hptr : d.hi.ptrIdx = some (j + 1))
    (hr : r + 1 = min d.block.restartInterval (items.length - j * d.block.restartInterval))
    (ha : items[j * d.block.restartInterval + r]? = some a)
    (hlo : d.lo.offset ≤ L.off (j * d.block.restartInterval + r)) :
    ∃ hi, d.nextBack = (some a, { d with hi := hi }) ∧ L.HiAt hi j r := by
  obtain ⟨hi, hfill, hat⟩ := fillStack_spec (d := { d with hi := { d.hi with ptrIdx := some j } })
    L rfl (by dsimp only; omega)
  rw [← hr] at hat
  obtain ⟨hi', htop, hat'⟩ := consumeStackTop_item (d := { d with hi := hi }) L hat ha hlo
  refine ⟨hi', ?_, hat'⟩
  have hempty : d.consumeStackTop = (none, d) := by simp only [consumeStackTop, hstack]
  unfold nextBack
  simp only [hempty, hptr]
  rw [hfill, htop]

theorem nextBack_item {e : ℕ} {a : α} (h : L.BackAt d.hi (e + 1)) (ha : items[e]? = some a)
    (hlo : d.lo.offset ≤ L.off e) :
    ∃ hi, d.nextBack = (some a, { d with hi := hi }) ∧ L.BackAt hi e := by
  have hpos := L.interval_pos
  rcases h with ⟨⟨hptr, hstack, -⟩, hn⟩ | ⟨j, r, he, hat⟩
  · obtain ⟨j, hj, hlast, hpast⟩ := L.exists_last
    obtain ⟨r, rfl⟩ := Nat.exists_eq_add_of_le (show j * d.block.restartInterval ≤ e by omega)
    rw [hj] at hptr
    obtain ⟨hi, hnext, hat⟩ := nextBack_enter L hstack hptr (by omega) ha hlo
    exact ⟨hi, hnext, .inr ⟨j, r, rfl, hat⟩⟩
  · have hlen := hat.le_length
    rcases r with _ | r
    · -- the interval is used up, and `e` is the last item of the one below
      rcases j with _ | j
      · simp at he
      · rw [succ_mul] at he hlen
        obtain ⟨r, rfl⟩ := Nat.exists_eq_add_of_le (show j * d.block.restartInterval ≤ e by omega)
        obtain ⟨hi, hnext, hat'⟩ := nextBack_enter L hat.stack hat.ptrIdx (by omega) ha hlo
        exact ⟨hi, hnext, .inr ⟨j, r, rfl, hat'⟩⟩
    · obtain rfl : e = j * d.block.restartInterval + r := by omega
      obtain ⟨hi, htop, hat'⟩ := consumeStackTop_item L hat ha hlo
      refine ⟨hi, ?_, .inr ⟨j, r, rfl, hat'⟩⟩
      unfold nextBack
      rw [htop]

end Back

section Spent

variable {L}

theorem next_spent (h : L.Spent d.lo d.hi) : d.next = (none, d) := by
  unfold next
  by_cases hlen : d.block.len ≤ d.lo.offset
  · rw [if_pos hlen]
  · rw [if_neg hlen, if_pos (h.front.resolve_left hlen)]

theorem nextBack_behind (h : L.Behind d.lo d.hi)
    (hfront : L.Spent d.lo d.hi ∨ ∃ j, d.hi.ptrIdx = some (j + 1)) :
    ∃ hi, d.nextBack = (none, { d with hi := hi }) ∧ L.Spent d.lo hi := by
  unfold nextBack
  rw [consumeStackTop_below h.stack]
  rcases hptr : d.hi.ptrIdx with _ | _ | j
  · have hpop := (hfront.resolve_right (by simp [hptr])).pop
    exact ⟨{ d.hi with stack := d.hi.stack.tail }, by simp only [hptr], hpop⟩
  · have hpop := (hfront.resolve_right (by simp [hptr])).pop
    exact ⟨{ d.hi with stack := d.hi.stack.tail, ptrIdx := none }, by simp only [hptr],
      ⟨⟨hpop.stack, nofun, nofun⟩, hpop.front⟩⟩
  · have hj : j * d.block.restartInterval < items.length :=
      (L.index_length j).1 (h.ptr_le _ hptr)
    obtain ⟨hi, hfill, hat⟩ := fillStack_spec
      (d := { d with hi := ⟨d.hi.offset, some j, d.hi.stack.tail, d.hi.baseKey⟩ }) L rfl hj
    have hsucc : (j + 1) * d.block.restartInterval =
        j * d.block.restartInterval + d.block.restartInterval := succ_mul j _
    have hdown : L.Spent d.lo hi :=
      hat.spent (h.reach _ hptr _ (by dsimp only; omega) hat.le_length)
    refine ⟨_, ?_, hdown.pop⟩
    simp only [hptr]
    rw [hfill]
    exact consumeStackTop_below (d := { d with hi := hi }) hdown.stack

end Spent

def Serves (head : α → κ) (items : List α) (d : Decoder α κ) (l : List α) : Prop :=
  ∃ L : Layout d.block head items, l = [] ∧ L.Spent d.lo d.hi ∨
    ∃ a e, L.FrontAt d.lo a ∧ L.BackAt d.hi e ∧ a ≤ e ∧ e ≤ items.length ∧
      l = (items.take e).drop a

theorem serves_new (L : Layout b head items) : Serves head items (new b) items := by
  refine ⟨L, .inr ⟨0, items.length, ⟨0, 0, ?_, ⟨L.interval_pos, ?_, rfl, nofun⟩⟩,
    .inl ⟨⟨rfl, rfl, rfl⟩, rfl⟩, zero_le _, le_rfl, ?_⟩⟩
  · rw [Nat.zero_mul]
  · rw [Nat.zero_mul, L.off_zero]
    rfl
  · rw [take_length, drop_zero]

theorem not_crossed {a e : ℕ} (hfront : L.FrontAt d.lo a) (hback : L.BackAt d.hi e) (hlt : a < e)
    (he : e ≤ items.length) : ¬(d.hi.baseKey.isSome ∧ d.hi.offset ≤ d.lo.offset) := by
  rintro ⟨hbase, hle⟩
  rcases hback with ⟨⟨-, -, hnone⟩, -⟩ | ⟨j, r, rfl, hat⟩
  · simp [hnone] at hbase
  · rw [hat.offset, hfront.offset] at hle
    exact absurd hle (not_le.2 (L.off_lt_off hlt he))

theorem serves_next {l : List α} (h : Serves head items d l) :
    d.next.1 = l.head? ∧ Serves head items d.next.2 l.tail := by
  obtain ⟨L, ⟨rfl, hspent⟩ | ⟨a, e, hfront, hback, hle, he, rfl⟩⟩ := h
  · rw [next_spent hspent]
    exact ⟨rfl, L, .inl ⟨rfl, hspent⟩⟩
  · rcases hle.lt_or_eq with hlt | rfl
    · have hlen : a < (items.take e).length := by rw [length_take]; omega
      have ha : items[a]? = some items[a] := getElem?_eq_getElem (by omega)
      obtain ⟨lo, hnext, hfront'⟩ := next_item L hfront ha (not_crossed L hfront hback hlt he)
      rw [hnext, drop_eq_getElem_cons hlen, getElem_take]
      exact ⟨rfl, L, .inr ⟨a + 1, e, hfront', hback, hlt, he, rfl⟩⟩
    · rw [drop_eq_nil_of_le (length_take_le a items)]
      rcases hback with ⟨hfresh, rfl⟩ | ⟨j, r, rfl, hat⟩
      · rw [next_end L hfront (by simp [hfresh.2.2])]
        exact ⟨rfl, L, .inl ⟨rfl, hfresh.behind (.inr le_rfl), .inl le_rfl⟩⟩
      · have hspent : L.Spent d.lo d.hi := hat.spent hfront.offset.ge
        rw [next_spent hspent]
        exact ⟨rfl, L, .inl ⟨rfl, hspent⟩⟩

theorem serves_nextBack {l : List α} (h : Serves head items d l) :
    d.nextBack.1 = l.getLast? ∧ Serves head items d.nextBack.2 l.dropLast := by
  obtain ⟨L, ⟨rfl, hspent⟩ | ⟨a, e, hfront, hback, hle, he, rfl⟩⟩ := h
  · obtain ⟨hi, hnext, hspent'⟩ := nextBack_behind hspent.toBehind (.inl hspent)
    rw [hnext]
    exact ⟨rfl, L, .inl ⟨rfl, hspent'⟩⟩
  · rcases hle.lt_or_eq with hlt | rfl
    · obtain ⟨e, rfl⟩ := Nat.exists_eq_add_one_of_ne_zero (Nat.ne_zero_of_lt hlt)
      have ha : items[e]? = some items[e] := getElem?_eq_getElem he
      have hlo : d.lo.offset ≤ L.off e :=
        hfront.offset.le.trans (L.off_le_off (le_of_lt_succ hlt) (le_of_succ_le he))
      obtain ⟨hi, hnext, hback'⟩ := nextBack_item L hback ha hlo
      have hlist : (items.take (e + 1)).drop a = (items.take e).drop a ++ [items[e]] := by
        rw [take_add_one, ha, Option.toList_some, drop_append_of_le_length]
        rw [length_take]
        omega
      rw [hnext, hlist, getLast?_concat, dropLast_concat]
      exact ⟨rfl, L, .inr ⟨a, e, hfront, hback', le_of_lt_succ hlt,
        le_of_succ_le he, rfl⟩⟩
    · rw [drop_eq_nil_of_le (length_take_le a items)]
      have hnext : ∃ hi, d.nextBack = (none, { d with hi := hi }) ∧ L.Spent d.lo hi := by
        rcases hback with ⟨hfresh, rfl⟩ | ⟨j, r, rfl, hat⟩
        · obtain ⟨j, hj, -⟩ := L.exists_last
          exact nextBack_behind (hfresh.behind (.inl hfront.offset)) (.inr ⟨j, hj ▸ hfresh.1⟩)
        · have hspent : L.Spent d.lo d.hi := hat.spent hfront.offset.ge
          exact nextBack_behind hspent.toBehind (.inl hspent)
      obtain ⟨hi, hnext, hspent⟩ := hnext
      rw [hnext]
      exact ⟨rfl, L, .inl ⟨rfl, hspent⟩⟩

theorem yields (head : α → κ) (items : List α) : Yields (Serves head items) where
  next h := serves_next h
  nextBack h := serves_nextBack h
  bound {d l} h := by
    obtain ⟨L, ⟨rfl, -⟩ | ⟨a, e, -, -, -, -, rfl⟩⟩ := h
    · exact zero_le _
    · have hle := L.le_off le_rfl
      have hend := L.off_end
      simp only [length_drop, length_take, Iter.bound]
      omega

end Decoder

end LsmTree
