import LsmTree.Theory.SortedSearch
import LsmTree.Table.BlockDecoder

/-! Seeks of a block decoder. A binary search over the restart heads finds the interval to enter,
and a walk from there finds the item. -/
namespace LsmTree

open SortedSearch DoubleEnded List Option

variable {α κ : Type*}

namespace EncodedBlock

variable (b : EncodedBlock α κ)

def getKeyAt (pos : ℕ) : Option κ :=
  if b.entriesEnd ≤ pos then none else if b.len ≤ pos then none else b.parseRestartKey pos

/-- The search shared by `partition_point` and `partition_point_2`: the number of restart heads
that satisfy the predicate. -/
def searchHeads (pred : κ → Bool) : Option ℕ :=
  bisect (fun mid => (b.binaryIndex[mid]?.bind b.getKeyAt).map pred) b.binaryIndex.length 0
    b.binaryIndex.length

/-- The last head that satisfies the predicate, or the first head. -/
def partitionPoint (pred : κ → Bool) : Option (ℕ × ℕ) :=
  if b.binaryIndex.length = 0 then none
  else
    (b.searchHeads pred).bind fun left =>
      if left = 0 then some (0, 0)
      else b.binaryIndex[left - 1]?.map fun offset => (offset, left - 1)

/-- The first head that does not satisfy the predicate, or the last head. -/
def partitionPoint2 (pred : κ → Bool) : Option (ℕ × ℕ) :=
  if b.binaryIndex.length = 0 then none
  else
    (b.searchHeads pred).bind fun left =>
      let idx := if left = b.binaryIndex.length then b.binaryIndex.length - 1 else left
      b.binaryIndex[idx]?.map fun offset => (offset, idx)

end EncodedBlock

namespace Decoder

variable (d : Decoder α κ)

def setLoOffset (offset : ℕ) : Decoder α κ := { d with lo := { d.lo with offset := offset } }

def exhaust : Decoder α κ where
  block := d.block
  lo := ⟨d.block.len, 0, none⟩
  hi := ⟨d.block.len, none, [], some ⟨0, 0⟩⟩

def seek (pred : κ → Bool) (secondPartition : Bool) : Bool × Decoder α κ :=
  let useNextRestart := secondPartition && d.block.restartInterval == 1
  match if useNextRestart then d.block.partitionPoint2 pred else d.block.partitionPoint pred with
  | none => (false, d.exhaust)
  | some (offset, _) =>
    if useNextRestart && (d.block.getKeyAt offset).any pred then (false, d.exhaust)
    else (true, { d with lo := ⟨offset, 0, none⟩ })

/-- One turn of the loop of `advance_while`: `none` ends it. -/
def advance (pred : α → Bool) : Option (Decoder α κ) :=
  if d.hi.baseKey.isSome ∧ d.hi.offset ≤ d.lo.offset then none
  else if d.block.len ≤ d.lo.offset then none
  else
    let isRestart := d.lo.remainingInInterval == 0
    match d.block.parseCurrentItem d.lo.offset d.lo.baseKey isRestart with
    | none => none
    | some p =>
      if !pred p.item then none
      else if d.hi.baseKey.isSome ∧ d.hi.offset < p.next then none
      else
        some { d with lo :=
          if isRestart then ⟨p.next, d.block.restartInterval - 1, some p.key⟩
          else ⟨p.next, d.lo.remainingInInterval - 1, d.lo.baseKey⟩ }

def advanceFor (pred : α → Bool) : ℕ → Decoder α κ → Decoder α κ
  | 0, d => d
  | fuel + 1, d =>
    match d.advance pred with
    | none => d
    | some d' => advanceFor pred fuel d'

/-- `advance_while`; every turn passes an item, and there are fewer of them than bytes. -/
def advanceWhile (pred : α → Bool) : Decoder α κ := advanceFor pred d.block.entriesEnd d

/-- `seek_index_block`: the first item that does not satisfy the predicate. -/
def seekIndex (head : α → κ) (pred : κ → Bool) : Bool × Decoder α κ :=
  let r := d.seek pred true
  if r.1 then
    (true, if 1 < d.block.restartInterval then r.2.advanceWhile fun a => pred (head a) else r.2)
  else (false, r.2)

end Decoder

namespace Decoder

variable {d : Decoder α κ} {head : α → κ} {pred : κ → Bool}

end Decoder

namespace Layout

variable {b : EncodedBlock α κ} {head : α → κ} {items : List α} (L : Layout b head items)
  (pred : κ → Bool)

def Ahead (lo : LoScanner) (l : List α) : Prop :=
  (∃ a, L.FrontAt lo a ∧ a ≤ items.length ∧ l = items.drop a) ∨ b.len ≤ lo.offset ∧ l = []

def headHolds (_ : Layout b head items) (pred : κ → Bool) (j : ℕ) : Bool :=
  items[j * b.restartInterval]?.any fun a => pred (head a)

theorem headHolds_of_le {j : ℕ} (h : items.length ≤ j * b.restartInterval) :
    L.headHolds pred j = false := by
  rw [headHolds, getElem?_eq_none h]
  rfl

theorem getKeyAt_head {j : ℕ} (h : j * b.restartInterval < items.length) :
    (b.binaryIndex[j]?.bind b.getKeyAt).map pred = some (L.headHolds pred j) := by
  have hlt := L.off_lt_off h le_rfl
  have hend := L.off_end
  have hlen := L.end_lt
  have ha := List.getElem?_eq_getElem h
  rw [L.index_get j h, bind_some, EncodedBlock.getKeyAt, if_neg (by omega),
    if_neg (by omega), L.restartKey j _ ha, headHolds, ha]
  rfl

variable {pred} (hmono : items.Pairwise fun x y => pred (head y) = true → pred (head x) = true)
include hmono

theorem headHolds_mono {i j : ℕ} (hij : i ≤ j) (h : L.headHolds pred j = true) :
    L.headHolds pred i = true := by
  obtain ⟨y, hy, hpred⟩ := (any_eq_true _ _).1 h
  rcases hij.lt_or_eq with hlt | rfl
  · have hpos := L.interval_pos
    have hmul : i * b.restartInterval < j * b.restartInterval := Nat.mul_lt_mul_of_pos_right hlt hpos
    obtain ⟨hj, rfl⟩ := List.getElem?_eq_some_iff.1 hy
    have hi : items[i * b.restartInterval]? = some items[i * b.restartInterval] :=
      List.getElem?_eq_getElem (by omega)
    rw [headHolds, hi]
    exact List.pairwise_iff_getElem.1 hmono _ _ _ hj hmul hpred
  · exact h

theorem searchHeads_spec : ∃ k, b.searchHeads pred = some k ∧ k ≤ b.binaryIndex.length ∧
    (∀ i, i < k → L.headHolds pred i = true) ∧ ∀ i, k ≤ i → L.headHolds pred i = false := by
  have hprobe : ∀ i, i < b.binaryIndex.length →
      (b.binaryIndex[i]?.bind b.getKeyAt).map pred = some (L.headHolds pred i) :=
    fun i hi => L.getKeyAt_head pred ((L.index_length i).1 hi)
  obtain ⟨k, hk, hle, hbelow, habove⟩ := bisect_spec hprobe
    (fun i j hij _ => L.headHolds_mono hmono hij) (le_refl _) (Nat.zero_le _) le_rfl
    (fun i hi => absurd hi (Nat.not_lt_zero i)) fun i hi hlt => absurd hlt (not_lt.2 hi)
  refine ⟨k, hk, hle, hbelow, fun i hi => ?_⟩
  by_cases hlt : i < b.binaryIndex.length
  · exact habove i hi hlt
  · exact L.headHolds_of_le pred (not_lt.1 fun h => hlt ((L.index_length i).2 h))

theorem partitionPoint_spec : ∃ j, b.partitionPoint pred =
    some (L.off (j * b.restartInterval), j) ∧ j * b.restartInterval < items.length ∧
    (0 < j → L.headHolds pred j = true) ∧ ∀ i, j < i → L.headHolds pred i = false := by
  obtain ⟨k, hk, hle, hbelow, habove⟩ := L.searchHeads_spec hmono
  obtain ⟨m, hm, -⟩ := L.exists_last
  rw [EncodedBlock.partitionPoint, if_neg (by omega), hk, bind_some]
  rcases k with _ | k
  · refine ⟨0, ?_, by simpa using L.items_pos, fun h => absurd h (lt_irrefl 0),
      fun i _ => habove i (Nat.zero_le i)⟩
    rw [if_pos rfl, Nat.zero_mul, L.off_zero]
  · have hlt := (L.index_length k).1 (by omega)
    refine ⟨k, ?_, hlt, fun _ => hbelow k (Nat.lt_succ_self k), fun i hi => habove i hi⟩
    rw [if_neg (Nat.succ_ne_zero k), Nat.add_sub_cancel, L.index_get k hlt]
    rfl

theorem partitionPoint2_spec : ∃ j, b.partitionPoint2 pred =
    some (L.off (j * b.restartInterval), j) ∧ j * b.restartInterval < items.length ∧
    (∀ i, i < j → L.headHolds pred i = true) ∧
    ((∀ i, j ≤ i → L.headHolds pred i = false) ∨
      L.headHolds pred j = true ∧ j + 1 = b.binaryIndex.length) := by
  obtain ⟨k, hk, hle, hbelow, habove⟩ := L.searchHeads_spec hmono
  obtain ⟨m, hm, hlast, -⟩ := L.exists_last
  rw [EncodedBlock.partitionPoint2, if_neg (by omega), hk, bind_some]
  dsimp only
  by_cases hall : k = b.binaryIndex.length
  · refine ⟨m, ?_, hlast, fun i hi => hbelow i (by omega), .inr ⟨hbelow m (by omega), hm.symm⟩⟩
    rw [if_pos hall, hm, Nat.add_sub_cancel, L.index_get m hlast]
    rfl
  · have hlt := (L.index_length k).1 (by omega)
    refine ⟨k, ?_, hlt, hbelow, .inl habove⟩
    rw [if_neg hall, L.index_get k hlt]
    rfl

end Layout

namespace Decoder

variable {head : α → κ} {items : List α} {d : Decoder α κ} (L : Layout d.block head items)
  {pred : κ → Bool}

/-- The items of `l` lie ahead of the front cursor, and the back cursor has not moved or the
block is exhausted. -/
def Lowered (head : α → κ) (items : List α) (d : Decoder α κ) (l : List α) : Prop :=
  ∃ L : Layout d.block head items, L.Ahead d.lo l ∧
    (L.Fresh d.hi ∨ l = [] ∧ L.Spent d.lo d.hi)

theorem lowered_fresh {p : ℕ} (hfront : L.FrontAt d.lo p) (hfresh : L.Fresh d.hi)
    (hp : p ≤ items.length) : Lowered head items d (items.drop p) :=
  ⟨L, .inl ⟨p, hfront, hp, rfl⟩, .inl hfresh⟩

theorem lowered_yieldsFront (head : α → κ) (items : List α) :
    YieldsFront (Lowered head items) := by
  rintro d l ⟨L, hahead, hfresh | ⟨rfl, hspent⟩⟩
  · have hhi : ¬(d.hi.baseKey.isSome ∧ d.hi.offset ≤ d.lo.offset) := by simp [hfresh.2.2]
    rcases hahead with ⟨a, hfront, ha, rfl⟩ | ⟨hlen, rfl⟩
    · rcases ha.lt_or_eq with hlt | rfl
      · obtain ⟨lo, hnext, hfront'⟩ := next_item L hfront (List.getElem?_eq_getElem hlt) hhi
        rw [drop_eq_getElem_cons hlt, show Iter.next d = _ from hnext]
        exact ⟨rfl, L, .inl ⟨a + 1, hfront', hlt, rfl⟩, .inl hfresh⟩
      · rw [drop_length, show Iter.next d = _ from next_end L hfront hhi]
        exact ⟨rfl, L, .inr ⟨le_rfl, rfl⟩, .inl hfresh⟩
    · have hnext : Iter.next d = (none, d) := if_pos hlen
      rw [hnext]
      exact ⟨rfl, L, .inr ⟨hlen, rfl⟩, .inl hfresh⟩
  · rw [show Iter.next d = _ from next_spent hspent]
    exact ⟨rfl, L, hahead, .inr ⟨rfl, hspent⟩⟩

theorem loAt_head {j : ℕ} :
    L.LoAt ⟨L.off (j * d.block.restartInterval), 0, none⟩ j 0 :=
  ⟨L.interval_pos, rfl, rfl, fun h => absurd h (lt_irrefl 0)⟩

theorem exhaust_spent : L.Spent d.exhaust.lo d.exhaust.hi :=
  ⟨⟨by simp [exhaust], by simp [exhaust], by simp [exhaust]⟩, .inl le_rfl⟩

variable (hmono : items.Pairwise fun x y => pred (head y) = true → pred (head x) = true)
include hmono

theorem seek_spec {secondPartition : Bool}
    (huse : (secondPartition && d.block.restartInterval == 1) = false) :
    ∃ j lo, d.seek pred secondPartition = (true, { d with lo := lo }) ∧ L.LoAt lo j 0 ∧
      j * d.block.restartInterval < items.length ∧ (0 < j → L.headHolds pred j = true) ∧
      ∀ i, j < i → L.headHolds pred i = false := by
  obtain ⟨j, hpoint, hlt, hj, habove⟩ := L.partitionPoint_spec hmono
  refine ⟨j, _, ?_, loAt_head L, hlt, hj, habove⟩
  simp only [seek, huse, Bool.false_eq_true, if_false, hpoint, Bool.false_and]

omit hmono in
theorem advance_item (test : α → Bool) {i : ℕ} {a : α} (hfront : L.FrontAt d.lo i)
    (hback : d.hi.baseKey = none) (ha : items[i]? = some a) :
    if test a then ∃ lo, d.advance test = some { d with lo := lo } ∧ L.FrontAt lo (i + 1)
    else d.advance test = none := by
  obtain ⟨hlen, -⟩ := List.getElem?_eq_some_iff.1 ha
  have hin : ¬d.block.len ≤ d.lo.offset := hfront.offset ▸ not_le.2 (L.off_lt_len hlen.le)
  obtain ⟨j, r, rfl, h⟩ := hfront
  obtain ⟨key, hparse, hkey⟩ := L.parse_item h.lt ha h.baseKey
  rw [← h.offset, ← h.remaining_beq] at hparse
  split_ifs with htest
  · refine ⟨_, ?_, h.advance rfl hkey⟩
    simp [advance, hback, hin, hparse, htest]
  · simp [advance, hback, hin, hparse, htest]

omit hmono in
theorem advance_end (test : α → Bool) (hfront : L.FrontAt d.lo items.length)
    (hback : d.hi.baseKey = none) : d.advance test = none := by
  simp only [advance, hback, isSome_none, Bool.false_eq_true, false_and,
    hfront.offset, L.parse_end, ite_self]

omit hmono in
theorem advanceFor_spec {test : α → Bool} {fuel i : ℕ} (hfuel : items.length - i ≤ fuel)
    (hi : i ≤ items.length) (hfront : L.FrontAt d.lo i) (hback : d.hi.baseKey = none) :
    ∃ lo p, advanceFor test fuel d = { d with lo := lo } ∧ L.FrontAt lo p ∧
      p ≤ items.length ∧ items.drop p = (items.drop i).dropWhile test := by
  induction fuel generalizing d i with
  | zero =>
    refine ⟨d.lo, i, rfl, hfront, hi, ?_⟩
    rw [drop_eq_nil_of_le (by omega)]
    rfl
  | succ fuel ih =>
    rw [advanceFor]
    rcases hi.lt_or_eq with hlt | rfl
    · have ha := List.getElem?_eq_getElem hlt
      have hturn := advance_item L test hfront hback ha
      rw [drop_eq_getElem_cons hlt, dropWhile_cons]
      split_ifs at hturn ⊢ with htest
      · obtain ⟨lo, hlo, hfront'⟩ := hturn
        rw [hlo]
        exact @ih { d with lo := lo } L (i + 1) (by omega) hlt hfront' hback
      · rw [hturn]
        exact ⟨d.lo, i, rfl, hfront, hi, drop_eq_getElem_cons hlt⟩
    · rw [advance_end L test hfront hback]
      refine ⟨d.lo, items.length, rfl, hfront, le_rfl, ?_⟩
      rw [drop_length]
      rfl

omit hmono in
theorem dropWhile_drop {test : α → Bool} {k : ℕ} (h : ∀ a ∈ items.take k, test a = true) :
    (items.drop k).dropWhile test = items.dropWhile test := by
  conv_rhs => rw [← take_append_drop k items]
  rw [dropWhile_append_of_pos h]

theorem forall_mem_take {j : ℕ} (hj : 0 < j → L.headHolds pred j = true) :
    ∀ a ∈ items.take (j * d.block.restartInterval), pred (head a) = true := by
  intro a ha
  obtain ⟨i, hi, rfl⟩ := mem_take_iff_getElem.1 ha
  rcases Nat.eq_zero_or_pos j with rfl | hpos
  · simp at hi
  · obtain ⟨y, hy, hpred⟩ := (any_eq_true _ _).1 (hj hpos)
    obtain ⟨hlt, rfl⟩ := List.getElem?_eq_some_iff.1 hy
    exact List.pairwise_iff_getElem.1 hmono i _ _ hlt (by omega) hpred

theorem seek_one (hone : d.block.restartInterval = 1) :
    (∃ j lo, d.seek pred true = (true, { d with lo := lo }) ∧ L.FrontAt lo j ∧
      j ≤ items.length ∧ items.drop j = items.dropWhile fun a => pred (head a)) ∨
    d.seek pred true = (false, d.exhaust) ∧ ∀ a ∈ items, pred (head a) = true := by
  obtain ⟨j, hpoint, hlt, hbelow, hcases⟩ := L.partitionPoint2_spec hmono
  have hkey : (d.block.getKeyAt (L.off (j * d.block.restartInterval))).any pred =
      L.headHolds pred j := by
    have hmap := L.getKeyAt_head pred hlt
    rw [L.index_get j hlt, bind_some] at hmap
    obtain ⟨key, hkey, hpred⟩ := map_eq_some_iff.1 hmap
    rw [hkey, ← hpred]
    rfl
  have htake : ∀ i, i < j → ∀ a, items[i]? = some a → pred (head a) = true := by
    intro i hi a ha
    have hholds := hbelow i hi
    rwa [Layout.headHolds, hone, Nat.mul_one, ha] at hholds
  have huse : (true && d.block.restartInterval == 1) = true := by simpa using hone
  have hseek : d.seek pred true =
      if L.headHolds pred j then (false, d.exhaust)
      else (true, { d with lo := ⟨L.off (j * d.block.restartInterval), 0, none⟩ }) := by
    simp only [seek, huse, if_true, hpoint, hkey, Bool.true_and]
  rw [hone, Nat.mul_one] at hlt
  rcases hcases with habove | ⟨hholds, hlast⟩
  · have hnot := habove j le_rfl
    refine .inl ⟨j, _, hseek.trans (if_neg (by rw [hnot]; exact Bool.false_ne_true)),
      ⟨j, 0, by rw [hone, Nat.mul_one]; rfl, loAt_head L⟩, hlt.le, ?_⟩
    rw [← dropWhile_drop fun a ha => ?_, drop_eq_getElem_cons hlt, dropWhile_cons_of_neg]
    · rw [Layout.headHolds, hone, Nat.mul_one, List.getElem?_eq_getElem hlt] at hnot
      simpa using hnot
    · obtain ⟨i, hi, rfl⟩ := mem_take_iff_getElem.1 ha
      exact htake i (by omega) _ (List.getElem?_eq_getElem _)
  · refine .inr ⟨hseek.trans (if_pos hholds), fun a ha => ?_⟩
    obtain ⟨i, hi, rfl⟩ := getElem_of_mem ha
    have hle : i ≤ j := by
      have hin := (L.index_length i).2 (by rw [hone, Nat.mul_one]; exact hi)
      omega
    have hi' := L.headHolds_mono hmono hle hholds
    rw [Layout.headHolds, hone, Nat.mul_one, List.getElem?_eq_getElem hi] at hi'
    exact hi'

theorem seekIndex_spec (hfresh : L.Fresh d.hi) :
    Lowered head items (d.seekIndex head pred).2 (items.dropWhile fun a => pred (head a)) ∧
      ((d.seekIndex head pred).1 = false → ∀ a ∈ items, pred (head a) = true) := by
  have hinterval := L.interval_pos
  by_cases hone : d.block.restartInterval = 1
  · have hmany : ¬1 < d.block.restartInterval := by omega
    rcases seek_one L hmono hone with ⟨j, lo, hseek, hfront, hj, hdrop⟩ | ⟨hseek, hall⟩
    · have heq : d.seekIndex head pred = (true, { d with lo := lo }) := by
        simp only [seekIndex, hseek, if_true, if_neg hmany]
      rw [heq, ← hdrop]
      exact ⟨lowered_fresh (d := { d with lo := lo }) L hfront hfresh hj, nofun⟩
    · have heq : d.seekIndex head pred = (false, d.exhaust) := by
        simp only [seekIndex, hseek, Bool.false_eq_true, if_false]
      rw [heq, dropWhile_eq_nil_iff.2 hall]
      exact ⟨⟨L, .inr ⟨le_rfl, rfl⟩, .inr ⟨rfl, exhaust_spent L⟩⟩, fun _ => hall⟩
  · have huse : (true && d.block.restartInterval == 1) = false := by simpa using hone
    obtain ⟨j, lo, hseek, hlo, hlt, hj, -⟩ := seek_spec L hmono huse
    have hmany : 1 < d.block.restartInterval := by omega
    have hfuel : items.length - j * d.block.restartInterval ≤ d.block.entriesEnd := by
      have hle := L.le_off le_rfl
      have hend := L.off_end
      omega
    obtain ⟨lo', p, hwalk, hfront, hp, hdrop⟩ :=
      @advanceFor_spec _ _ _ _ { d with lo := lo } L (fun a => pred (head a)) _ _ hfuel hlt.le
        ⟨j, 0, rfl, hlo⟩ hfresh.2.2
    have heq : d.seekIndex head pred = (true, { d with lo := lo' }) := by
      simp only [seekIndex, hseek, if_true, if_pos hmany, advanceWhile]
      rw [hwalk]
    rw [heq]
    refine ⟨?_, nofun⟩
    rw [← dropWhile_drop (forall_mem_take L hmono hj), ← hdrop]
    exact lowered_fresh (d := { d with lo := lo' }) L hfront hfresh hp

end Decoder

namespace Decoder

def resetBackCursor (d : Decoder α κ) : Decoder α κ :=
  { d with hi := ⟨d.hi.offset, some d.block.binaryIndex.length, [], none⟩ }

theorem resetBackCursor_fresh {d : Decoder α κ} {head : α → κ} {items : List α}
    (L : Layout d.block head items) : L.Fresh d.resetBackCursor.hi := ⟨rfl, rfl, rfl⟩

end Decoder

end LsmTree
