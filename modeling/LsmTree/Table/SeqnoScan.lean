import LsmTree.Table.Restriction

/-! The scan of a table for a window of sequence numbers. -/
namespace LsmTree

open List

variable {K V : Type*}

/-- A table file with its blocks and what `load_data_block` gives for each. -/
structure ScannedTable (K V : Type*) [LinearOrder K] where
  blocks : List (Block K V)
  loadDataBlock : Block K V → Option (List (InternalValue K V))
  /-- `use_seqno_in_index` of the writer -/
  hasSeqnoBounds : Bool
  globalSeqno : ℕ
  restriction : Option K
  sorted : (blocks.flatMap (·.entries)).Pairwise fun a b => a.le b = true
  sized : ∀ b ∈ blocks, 0 < b.size
  load_sublist : ∀ b es, loadDataBlock b = some es → es.Sublist b.entries

def Block.seqnoBounds (b : Block K V) : ℕ × ℕ :=
  b.entries.foldl (fun bounds e => (min bounds.1 e.seqno, max bounds.2 e.seqno)) (2 ^ 64 - 1, 0)

theorem Block.seqno_mem_bounds {b : Block K V} {e : InternalValue K V} (he : e ∈ b.entries) :
    b.seqnoBounds.1 ≤ e.seqno ∧ e.seqno ≤ b.seqnoBounds.2 := by
  -- the fold only widens what it starts with
  have hfold : ∀ (es : List (InternalValue K V)) (bounds : ℕ × ℕ),
      (es.foldl (fun bounds e => (min bounds.1 e.seqno, max bounds.2 e.seqno)) bounds).1 ≤
          bounds.1 ∧
        bounds.2 ≤
          (es.foldl (fun bounds e => (min bounds.1 e.seqno, max bounds.2 e.seqno)) bounds).2 := by
    intro es
    induction es with
    | nil => exact fun bounds => ⟨le_rfl, le_rfl⟩
    | cons e es ih =>
      intro bounds
      obtain ⟨hlo, hhi⟩ := ih (min bounds.1 e.seqno, max bounds.2 e.seqno)
      exact ⟨hlo.trans (min_le_left _ _), (le_max_left _ _).trans hhi⟩
  obtain ⟨before, after, hsplit⟩ := append_of_mem he
  rw [seqnoBounds, hsplit, foldl_append, foldl_cons]
  obtain ⟨hlo, hhi⟩ := hfold after (min _ e.seqno, max _ e.seqno)
  exact ⟨hlo.trans (min_le_right _ _), (le_max_right _ _).trans hhi⟩

namespace ScannedTable

variable [LinearOrder K] (t : ScannedTable K V)

def seqnoBounds : List (ℕ × ℕ × ℕ) :=
  if t.hasSeqnoBounds then (handlesFrom 0 t.blocks).map fun h => (h.1.offset, h.2.seqnoBounds)
  else []

/-- `bounds_for`; the offsets ascend, so that a binary search finds the one entry. -/
def boundsFor (offset : ℕ) : Option (ℕ × ℕ) :=
  (t.seqnoBounds.find? (·.1 == offset)).map (·.2)

def belowRestriction (k : K) : Bool := t.restriction.any fun bound => decide (k < bound)

def scanBlock (localTarget localEnd : ℕ) (blockSkip : Bool) (h : KeyedBlockHandle K × Block K V) :
    List (InternalValue K V) :=
  if t.belowRestriction h.1.endKey then []
  else if blockSkip && (t.boundsFor h.1.offset).any fun bounds =>
      decide (bounds.2 < localTarget) || decide (localEnd < bounds.1) then []
  else
    match t.loadDataBlock h.2 with
    | none => []
    | some es => (es.filter fun e => !t.belowRestriction e.userKey &&
        decide (localTarget ≤ e.seqno) && decide (e.seqno ≤ localEnd)).map
          (InternalValue.withGlobalSeqno t.globalSeqno)

def scanSeqnoRange (targetSeqno endSeqno : ℕ) (blockSkip : Bool) : List (InternalValue K V) :=
  if endSeqno < t.globalSeqno then []
  else if endSeqno - t.globalSeqno < targetSeqno - t.globalSeqno then []
  else (handlesFrom 0 t.blocks).flatMap
    (t.scanBlock (targetSeqno - t.globalSeqno) (endSeqno - t.globalSeqno) blockSkip)

def entries : List (InternalValue K V) :=
  ((t.blocks.flatMap fun b => (t.loadDataBlock b).getD []).filter
    fun e => !t.belowRestriction e.userKey).map (InternalValue.withGlobalSeqno t.globalSeqno)

variable {t} {h : KeyedBlockHandle K × Block K V} {localTarget localEnd : ℕ}

omit [LinearOrder K] in
theorem offsets_nodup {blocks : List (Block K V)} (hsized : ∀ b ∈ blocks, 0 < b.size)
    (offset : ℕ) : ((handlesFrom offset blocks).map (·.1.offset)).Nodup := by
  induction blocks generalizing offset with
  | nil => exact nodup_nil
  | cons b blocks ih =>
    obtain ⟨hb, hsized⟩ := forall_mem_cons.1 hsized
    refine nodup_cons.2 ⟨fun hmem => ?_, ih hsized _⟩
    obtain ⟨h', hh', heq⟩ := mem_map.1 hmem
    have hle := le_offset_handlesFrom hh'
    dsimp only at heq
    omega

theorem boundsFor_eq (hh : h ∈ handlesFrom 0 t.blocks) {bounds : ℕ × ℕ}
    (hbounds : t.boundsFor h.1.offset = some bounds) : bounds = h.2.seqnoBounds := by
  obtain ⟨entry, hfind, rfl⟩ := Option.map_eq_some_iff.1 hbounds
  have hmem := mem_of_find?_eq_some hfind
  have hoffset : entry.1 = h.1.offset := by simpa using find?_some hfind
  rw [seqnoBounds] at hmem
  split at hmem
  · obtain ⟨h', hh', rfl⟩ := mem_map.1 hmem
    rw [inj_on_of_nodup_map (offsets_nodup t.sized 0) hh' hh hoffset]
  · cases hmem

theorem mem_load (hh : h ∈ handlesFrom 0 t.blocks) {es : List (InternalValue K V)}
    (hload : t.loadDataBlock h.2 = some es) {e : InternalValue K V} (he : e ∈ es) :
    e.userKey ≤ h.1.endKey ∧ h.2.seqnoBounds.1 ≤ e.seqno ∧ e.seqno ≤ h.2.seqnoBounds.2 := by
  obtain ⟨hb, hend⟩ := mem_of_mem_handlesFrom hh
  have hmem := (t.load_sublist _ _ hload).subset he
  refine ⟨?_, Block.seqno_mem_bounds hmem⟩
  have hsorted : KeySorted h.2.entries :=
    ((pairwise_flatMap.1 t.sorted).1 h.2 hb).imp InternalValue.le_key.1
  rw [hend]
  exact hsorted.le_getLast (getLast?_eq_some_getLast h.2.filled) hmem

theorem scanBlock_eq (hh : h ∈ handlesFrom 0 t.blocks) (blockSkip : Bool) :
    t.scanBlock localTarget localEnd blockSkip h =
      (((t.loadDataBlock h.2).getD []).filter fun e => !t.belowRestriction e.userKey &&
        decide (localTarget ≤ e.seqno) && decide (e.seqno ≤ localEnd)).map
          (InternalValue.withGlobalSeqno t.globalSeqno) := by
  cases hload : t.loadDataBlock h.2 with
  | none => simp [scanBlock, hload]
  | some es =>
    have hempty : (∀ e ∈ es, t.belowRestriction e.userKey = true ∨ e.seqno < localTarget ∨
        localEnd < e.seqno) → es.filter (fun e => !t.belowRestriction e.userKey &&
          decide (localTarget ≤ e.seqno) && decide (e.seqno ≤ localEnd)) = [] := by
      intro hall
      refine filter_eq_nil_iff.2 fun e he => ?_
      simp only [Bool.and_eq_true, Bool.not_eq_true', decide_eq_true_eq, not_and, not_le]
      intro hvisible
      rcases hall e he with hbelow | hout
      · rw [hbelow] at hvisible
        cases hvisible.1
      · omega
    rw [scanBlock, Option.getD_some, hload]
    by_cases hbelow : t.belowRestriction h.1.endKey = true
    · rw [if_pos hbelow, hempty, map_nil]
      intro e he
      obtain ⟨bound, hbound, hlt⟩ := Option.any_eq_true _ _ |>.1 hbelow
      have hle := (mem_load hh hload he).1
      exact Or.inl (Option.any_eq_true _ _ |>.2
        ⟨bound, hbound, decide_eq_true (hle.trans_lt (of_decide_eq_true hlt))⟩)
    · rw [if_neg hbelow]
      split
      case isFalse => rfl
      case isTrue hskip =>
        obtain ⟨bounds, hbounds, hout⟩ := Option.any_eq_true _ _ |>.1 (Bool.and_eq_true_iff.1 hskip).2
        rw [hempty, map_nil]
        intro e he
        have hrow := (mem_load hh hload he).2
        rw [boundsFor_eq hh hbounds] at hout
        simp only [Bool.or_eq_true, decide_eq_true_eq] at hout
        omega

omit [LinearOrder K] in
theorem flatMap_handlesFrom (g : Block K V → List (InternalValue K V)) (blocks : List (Block K V))
    (offset : ℕ) : (handlesFrom offset blocks).flatMap (fun h => g h.2) = blocks.flatMap g := by
  induction blocks generalizing offset with
  | nil => rfl
  | cons b blocks ih => exact congrArg (g b ++ ·) (ih _)

theorem entries_sorted (t : ScannedTable K V) : t.entries.Pairwise fun a b => a.le b = true := by
  have hsub : (t.blocks.flatMap fun b => (t.loadDataBlock b).getD []).Sublist
      (t.blocks.flatMap (·.entries)) := by
    generalize t.blocks = blocks
    induction blocks with
    | nil => exact List.Sublist.refl _
    | cons b blocks ih =>
      refine List.Sublist.append ?_ ih
      dsimp only
      cases hload : t.loadDataBlock b with
      | none => exact nil_sublist _
      | some es => exact t.load_sublist b es hload
  refine pairwise_map.2 (((t.sorted.sublist hsub).filter _).imp fun hle => ?_)
  rw [InternalValue.le_iff] at hle ⊢
  exact hle.imp_right (And.imp_right (Nat.add_le_add_right · _))

/-- The scan yields the entries whose translated sequence numbers are in the window, in key order,
with and without the bounds of the blocks. -/
theorem scanSeqnoRange_eq (t : ScannedTable K V) (targetSeqno endSeqno : ℕ) (blockSkip : Bool) :
    t.scanSeqnoRange targetSeqno endSeqno blockSkip =
        t.entries.filter (fun e => decide (targetSeqno ≤ e.seqno) && decide (e.seqno ≤ endSeqno)) ∧
      (t.scanSeqnoRange targetSeqno endSeqno blockSkip).Pairwise fun a b => a.le b = true := by
  have hout : (∀ seqno, targetSeqno ≤ seqno + t.globalSeqno → endSeqno < seqno + t.globalSeqno) →
      t.entries.filter (fun e => decide (targetSeqno ≤ e.seqno) && decide (e.seqno ≤ endSeqno)) =
        [] := by
    intro hall
    refine filter_eq_nil_iff.2 fun e he => ?_
    obtain ⟨f, -, rfl⟩ := mem_map.1 he
    simp only [Bool.and_eq_true, decide_eq_true_eq, not_and, not_le]
    exact hall f.seqno
  have heq : t.scanSeqnoRange targetSeqno endSeqno blockSkip =
      t.entries.filter fun e => decide (targetSeqno ≤ e.seqno) && decide (e.seqno ≤ endSeqno) := by
    rw [scanSeqnoRange]
    by_cases hbase : endSeqno < t.globalSeqno
    · rw [if_pos hbase, hout fun seqno _ => by omega]
    · by_cases hwindow : endSeqno - t.globalSeqno < targetSeqno - t.globalSeqno
      · rw [if_neg hbase, if_pos hwindow, hout fun seqno hle => by omega]
      · rw [if_neg hbase, if_neg hwindow, flatMap_congr fun h hh => scanBlock_eq hh blockSkip,
          flatMap_handlesFrom fun b => (((t.loadDataBlock b).getD []).filter fun e =>
            !t.belowRestriction e.userKey && decide (targetSeqno - t.globalSeqno ≤ e.seqno) &&
              decide (e.seqno ≤ endSeqno - t.globalSeqno)).map
                (InternalValue.withGlobalSeqno t.globalSeqno),
          ← map_flatMap, ← filter_flatMap, entries, filter_map, filter_filter]
        congr 1
        apply filter_congr
        intro e _
        rw [Bool.and_assoc, Bool.and_comm]
        congr 1
        have hseqno : (e.withGlobalSeqno t.globalSeqno).seqno = e.seqno + t.globalSeqno := rfl
        rw [Bool.eq_iff_iff]
        simp only [Function.comp_apply, Bool.and_eq_true, decide_eq_true_eq]
        omega
  exact ⟨heq, heq ▸ (entries_sorted t).filter _⟩

/-- An ingestion at 100 wrote the table, and its keys below 2 have been compacted away. -/
def twoBlocks : ScannedTable ℕ ℕ where
  blocks := [⟨[⟨1, 3, .value, 10⟩, ⟨2, 1, .value, 20⟩], cons_ne_nil _ _, 40⟩,
    ⟨[⟨2, 0, .value, 21⟩, ⟨4, 6, .tombstone, 0⟩], cons_ne_nil _ _, 30⟩]
  loadDataBlock b := some b.entries
  hasSeqnoBounds := true
  globalSeqno := 100
  restriction := some 2
  sorted := by decide
  sized := by decide
  load_sublist _ _ h := Option.some.inj h ▸ Sublist.refl _

/-- From 104 on the bounds leave out the first block; up to 103 the restriction hides its key 1. -/
theorem twoBlocks_scan :
    twoBlocks.scanSeqnoRange 104 200 true = [⟨4, 106, .tombstone, 0⟩] ∧
      twoBlocks.scanSeqnoRange 0 103 true = [⟨2, 101, .value, 20⟩, ⟨2, 100, .value, 21⟩] ∧
      twoBlocks.scanSeqnoRange 0 103 false = twoBlocks.scanSeqnoRange 0 103 true := by
  refine ⟨(scanSeqnoRange_eq twoBlocks 104 200 true).1.trans (by decide),
    (scanSeqnoRange_eq twoBlocks 0 103 true).1.trans (by decide), ?_⟩
  rw [(scanSeqnoRange_eq twoBlocks 0 103 false).1, (scanSeqnoRange_eq twoBlocks 0 103 true).1]

end ScannedTable

end LsmTree
