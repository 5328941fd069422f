import LsmTree.Read.BatchWalk
import LsmTree.Read.PointScan

/-! Reads of a key-value separated tree. -/
namespace LsmTree

open Option

variable {K V : Type*} [LinearOrder K]

/-- The index of a blob tree, with the blobs of its handles and what its tables answer to a batch.
-/
structure BlobView (K V : Type*) [LinearOrder K] where
  index : SuperVersion K V
  /-- `Accessor::get`, on the bytes of a handle -/
  blob : V → V
  mergeOperator : Option (MergeOperator K V)

namespace BlobView

variable (b : BlobView K V)

def resolveValueHandle (item : InternalValue K V) : V :=
  if item.valueType = .indirection then b.blob item.value else item.value

/-- `get`, by `resolve_key` -/
def resolveKey (k : K) (seqno : ℕ) : Option V :=
  (b.index.getValue k seqno).map b.resolveValueHandle

def resolveEntry (k : K) (seqno : ℕ) (item : InternalValue K V) : Option V :=
  if item.isTombstone then none
  else if b.index.isSuppressedByRangeTombstones k seqno item.seqno then none
  else if item.isMergeOperand then
    match b.mergeOperator with
    | some _ => (b.index.createRangePoint b.mergeOperator k seqno).head?.map (·.value)
    | none => some item.value
  else some (b.resolveValueHandle item)

def multiGet (reads : BatchReads (Table K V) K V) (oversize : ℕ → Bool) (seqno : ℕ)
    (keys : List K) : List (Option V) :=
  if keys.length ≤ 2 then keys.map fun k => b.resolveKey k seqno
  else
    let entries := multiGetEntries
      (fun k => b.index.memtablesNewestFirst.findSome? fun m => m.get k seqno) reads
      b.index.version.levels seqno oversize keys
    keys.zipIdx.map fun x => (entries x.2).bind (b.resolveEntry x.1 seqno)

/-- What a scan over all keys yields for `k`, its guard resolved; `range` and `prefix` scan the index
without a merge operator. -/
def scanValue (k : K) (seqno : ℕ) : Option V :=
  ((b.index.createRange none seqno).find? fun e => decide (e.userKey = k)).map
    b.resolveValueHandle

/-- The scan, the short batch and the long batch all give what the point read gives. -/
def ReadsAgree (k : K) (seqno : ℕ) : Prop :=
  b.scanValue k seqno = b.resolveKey k seqno ∧
    ∀ reads : BatchReads (Table K V) K V, (∀ t ∈ b.index.version.tables,
        reads.Answers (fun k t => t.get k seqno) t) →
      ∀ (oversize : ℕ → Bool) (keys : List K) (i : ℕ), keys[i]? = some k →
        (b.multiGet reads oversize seqno keys)[i]? = some (b.resolveKey k seqno)

/-- A merge operand on top of the history resolves to itself: the walk below it ends at a handle, or
the operator returns the newest operand. -/
def OperandStands (op : MergeOperator K V) (k : K) (seqno : ℕ) : Prop :=
  ∀ e older, b.index.history k seqno = e :: older → e.isMergeOperand = true →
    let walk := (⟨some op, [], seqno⟩ : MvccStream K V).collect k older
    walk.sawIndirectionBase = true ∨
      op.merge k walk.baseValue (e.value :: walk.operands).reverse = e.value

/-- The newest version of `k`, merged with what lies below it. -/
def mergedValue (k : K) (seqno : ℕ) : Option V :=
  ((⟨b.mergeOperator, [], seqno⟩ : MvccStream K V).readEntry (b.index.history k seqno)).map
    b.resolveValueHandle

variable {b} {k : K} {seqno : ℕ}

theorem emit_operand_type {m : MvccStream K V} {e : InternalValue K V} (hop : e.isMergeOperand = true)
    (es : List (InternalValue K V)) :
    (m.emit e es).valueType ≠ .indirection ∧ (m.emit e es).isTombstone = false := by
  have htype : e.valueType = .mergeOperand := by
    simpa [InternalValue.isMergeOperand] using hop
  have hself : e.valueType ≠ .indirection ∧ e.isTombstone = false := by
    simp [htype, InternalValue.isTombstone, ValueType.isTombstone]
  unfold MvccStream.emit
  cases m.mergeOperator with
  | none => exact hself
  | some op =>
    dsimp only
    split_ifs
    · rw [MvccStream.resolveMergeForward]
      split_ifs
      · exact hself
      · exact ⟨by simp, rfl⟩
    · exact hself

section Paths

variable (h : b.index.WrittenInOrder) (hrts : b.index.rangeTombstones = [])
include h hrts

omit h in
theorem isRtSuppressed_point (e : InternalValue K V) :
    isRtSuppressed (b.index.pointRangeTombstones k) seqno e = false := by
  have hnil : b.index.pointRangeTombstones k = [] :=
    List.subset_nil.1 (hrts ▸ SuperVersion.pointRangeTombstones_subset)
  simp [hnil, isRtSuppressed]

theorem resolveKey_eq : b.resolveKey k seqno =
    ((b.index.history k seqno).head?.filter fun e => !e.isTombstone).map b.resolveValueHandle := by
  rw [resolveKey, SuperVersion.getValue_eq h.layered]
  cases hh : b.index.history k seqno with
  | nil => rfl
  | cons e es =>
    have hk : e.userKey = k := SuperVersion.history_userKey (hh ▸ List.mem_cons_self)
    simp only [List.head?_cons, filter_some, SuperVersion.isSuppressedByRangeTombstones_eq hk,
      isRtSuppressed_point hrts, Bool.not_false, Bool.and_true]

/-- The scan returns a merge operand as it is, as the point read does. -/
theorem scanValue_eq_resolveKey : b.scanValue k seqno = b.resolveKey k seqno := by
  rw [scanValue, SuperVersion.createRange_entry (SuperVersion.opensInOrder h.sources_tieFree), hrts, resolveKey_eq h hrts]
  cases b.index.history k seqno with
  | nil => rfl
  | cons e es =>
    cases he : e.isTombstone <;> simp [MvccStream.readEntry, MvccStream.emit, isRtSuppressed, he]

omit h in
theorem resolveEntry_head : (b.index.history k seqno).head?.bind (b.resolveEntry k seqno) =
    b.mergedValue k seqno := by
  have hnil : b.index.pointRangeTombstones k = [] :=
    List.subset_nil.1 (hrts ▸ SuperVersion.pointRangeTombstones_subset)
  have hpipe := SuperVersion.createRangePoint_head b.index b.mergeOperator k seqno
  rw [hnil, MvccStream.readKey_eq_readEntry] at hpipe
  rw [mergedValue]
  cases hh : b.index.history k seqno with
  | nil => rfl
  | cons e es =>
    have hk : e.userKey = k := SuperVersion.history_userKey (hh ▸ List.mem_cons_self)
    rw [hh] at hpipe
    simp only [List.head?_cons, bind_some, resolveEntry,
      SuperVersion.isSuppressedByRangeTombstones_eq hk, isRtSuppressed_point hrts,
      Bool.false_eq_true, if_false]
    by_cases hop : e.isMergeOperand = true
    · have hemit := emit_operand_type (m := ⟨b.mergeOperator, [], seqno⟩) hop es
      have hself : e.isTombstone = false := by
        have htype : e.valueType = .mergeOperand := by simpa [InternalValue.isMergeOperand] using hop
        simp [htype, InternalValue.isTombstone, ValueType.isTombstone]
      have hread : (⟨b.mergeOperator, [], seqno⟩ : MvccStream K V).readEntry (e :: es) =
          some ((⟨b.mergeOperator, [], seqno⟩ : MvccStream K V).emit e es) := by
        simp [MvccStream.readEntry, hemit.2, isRtSuppressed]
      rw [hread] at hpipe ⊢
      simp only [hself, hop, Bool.false_eq_true, if_false, if_true, map_some,
        resolveValueHandle, if_neg hemit.1]
      cases hm : b.mergeOperator with
      | none => simp [MvccStream.emit]
      | some m =>
        rw [hm] at hpipe
        exact hpipe
    · rw [Bool.not_eq_true] at hop
      simp only [MvccStream.readEntry, MvccStream.emit_of_not_operand hop, hop, isRtSuppressed,
        List.any_nil, Bool.or_false, Bool.false_eq_true, if_false]
      split_ifs <;> rfl

theorem multiGet_long {reads : BatchReads (Table K V) K V}
    (hreads : ∀ t ∈ b.index.version.tables, reads.Answers (fun k t => t.get k seqno) t)
    (hids : b.index.version.DistinctIds) (oversize : ℕ → Bool) {keys : List K}
    (hlong : ¬ keys.length ≤ 2) {i : ℕ} (hk : keys[i]? = some k) :
    (b.multiGet reads oversize seqno keys)[i]? = some (b.mergedValue k seqno) := by
  have hlevels : ∀ i level, b.index.version.levels[i]? = some level →
      LevelReadable reads (fun k t => t.get k seqno) seqno i level := by
    intro i level hl
    have hmem : level ∈ b.index.version.levels := List.mem_of_getElem? hl
    constructor
    · intro run hr t ht t' ht' hid
      exact List.inj_on_of_nodup_map hids (SuperVersion.mem_tables hmem hr ht)
        (SuperVersion.mem_tables hmem hr ht') hid
    · exact fun run hr t ht => hreads t (SuperVersion.mem_tables hmem hr ht)
    · intro run hr t ht k item hitem
      exact (InternalValue.matchesKey_iff.1 (List.find?_some hitem)).2
    · exact fun hi k => b.index.levelsInOrder.oneRun hi hl k
  have hentries := multiGetEntries_eq hlevels
    (fun k => b.index.memtablesNewestFirst.findSome? fun m => m.get k seqno) oversize hk
  have hhead : (b.index.memtablesNewestFirst.findSome? fun m => m.get k seqno).or
      (findInLevels (fun t : Table K V => t.get k seqno) k seqno b.index.version.levels) =
        (b.index.history k seqno).head? := by
    cases hmem : b.index.memtablesNewestFirst.findSome? fun m => m.get k seqno with
    | some e => rw [some_or, SuperVersion.memtable_newest h.layered hmem]
    | none => rw [none_or, SuperVersion.levels_newest hmem h.layered]
  rw [multiGet, if_neg hlong]
  simp only [List.getElem?_map, List.getElem?_zipIdx, hk, map_some, Nat.zero_add]
  rw [hentries, hhead, resolveEntry_head hrts]

end Paths

theorem multiGet_short {reads : BatchReads (Table K V) K V} {oversize : ℕ → Bool} {keys : List K}
    (hshort : keys.length ≤ 2) {i : ℕ} (hk : keys[i]? = some k) :
    (b.multiGet reads oversize seqno keys)[i]? = some (b.resolveKey k seqno) := by
  simp only [multiGet, if_pos hshort, List.getElem?_map, hk, map_some]

theorem mergedValue_eq_resolveKey_iff {op : MergeOperator K V} (hop : b.mergeOperator = some op)
    (h : b.index.WrittenInOrder) (hrts : b.index.rangeTombstones = []) :
    b.mergedValue k seqno = b.resolveKey k seqno ↔ b.OperandStands op k seqno := by
  rw [mergedValue, resolveKey_eq h hrts, hop]
  unfold OperandStands
  cases hh : b.index.history k seqno with
  | nil => simp [MvccStream.readEntry]
  | cons e es =>
    have hk : e.userKey = k := SuperVersion.history_userKey (hh ▸ List.mem_cons_self)
    by_cases he : e.isMergeOperand = true
    · have htype : e.valueType = .mergeOperand := by simpa [InternalValue.isMergeOperand] using he
      have hself : e.isTombstone = false := by
        simp [htype, InternalValue.isTombstone, ValueType.isTombstone]
      have hmerged : ((⟨some op, [], seqno⟩ : MvccStream K V).readEntry (e :: es)).map
          b.resolveValueHandle = (⟨some op, [], seqno⟩ : MvccStream K V).readKey (e :: es) := by
        have hemit := emit_operand_type (m := ⟨some op, [], seqno⟩) he es
        simp [MvccStream.readKey_eq_readEntry, MvccStream.readEntry, hemit.2, isRtSuppressed,
          resolveValueHandle, hemit.1]
      have hread : (⟨some op, [], seqno⟩ : MvccStream K V).readKey (e :: es) = _ :=
        MvccStream.readKey_operand rfl he (by simp [isRtSuppressed])
      have hpoint : ((e :: es).head?.filter fun e => !e.isTombstone).map b.resolveValueHandle =
          some e.value := by
        simp [filter_some, hself, resolveValueHandle, htype]
      rw [hmerged, hread, hpoint, hk]
      constructor
      · rintro heq e' older hcons -
        obtain ⟨rfl, rfl⟩ := List.cons.inj hcons
        have heq := Option.some.inj heq
        dsimp only
        split_ifs at heq with hsaw
        · exact Or.inl hsaw
        · exact Or.inr heq
      · intro hstands
        congr 1
        split_ifs with hsaw
        · rfl
        · exact (hstands e es rfl he).resolve_left hsaw
    · rw [Bool.not_eq_true] at he
      constructor
      · rintro - e' older hcons he'
        obtain ⟨rfl, -⟩ := List.cons.inj hcons
        rw [he] at he'
        cases he'
      · intro _
        simp only [MvccStream.readEntry, MvccStream.emit_of_not_operand he, isRtSuppressed,
          List.any_nil, Bool.or_false, List.head?_cons, filter_some]
        cases e.isTombstone <;> rfl

/-- Tables that look each key of a batch up by itself. -/
def plainReads (seqno : ℕ) : BatchReads (Table K V) K V where
  batchGet t ks := ks.map fun k => t.get k seqno
  planBlockTasks t batch := [(fun k => t.get k seqno, batch)]

theorem plainReads_answers (t : Table K V) :
    (plainReads seqno).Answers (fun k t => t.get k seqno) t where
  batchGet _ _ _ := rfl
  planned batch task h := by
    rw [List.mem_singleton.1 h]
    exact List.Subset.refl _
  planBlockTasks batch hasc _ x hx := by
    have hslot : batch.filter (fun y => y.1 = x.1) = [x] := Slots.filter_key_eq hasc.indices hx
    simp only [plainReads, List.flatMap_singleton, hslot, List.map_singleton, List.foldl_cons,
      List.foldl_nil]
    cases Table.get t x.2 seqno <;> rfl

/-- Point read, batches of every length and scan agree on a key exactly when a merge operand on top
of its history resolves to itself: otherwise a batch of three keys stands out. -/
theorem readsAgree_iff (b : BlobView K V) {op : MergeOperator K V} (hop : b.mergeOperator = some op)
    (h : b.index.WrittenInOrder) (hids : b.index.version.DistinctIds)
    (hrts : b.index.rangeTombstones = []) (k : K) (seqno : ℕ) :
    b.ReadsAgree k seqno ↔ b.OperandStands op k seqno := by
  rw [← mergedValue_eq_resolveKey_iff hop h hrts]
  constructor
  · rintro ⟨-, hbatch⟩
    have hreads : ∀ t ∈ b.index.version.tables,
        (plainReads seqno).Answers (fun k t => t.get k seqno) t := fun t _ => plainReads_answers t
    have hget := hbatch (plainReads seqno) hreads (fun _ => false) [k, k, k] 0 rfl
    rw [multiGet_long h hrts hreads hids _ (by simp : ¬ [k, k, k].length ≤ 2) rfl] at hget
    exact Option.some.inj hget
  · intro hmerged
    refine ⟨scanValue_eq_resolveKey h hrts, fun reads hreads oversize keys i hk => ?_⟩
    by_cases hshort : keys.length ≤ 2
    · exact multiGet_short hshort hk
    · rw [multiGet_long h hrts hreads hids oversize hshort hk, hmerged]

section Example

/-- A value and a merge operand over it, both still in the active memtable. -/
def operandOverValue : BlobView (List Byte) ℕ where
  index := {
    activeMemtable := ⟨[⟨[107], 2, .mergeOperand, 5⟩, ⟨[107], 1, .value, 10⟩], [], by decide⟩
    sealedMemtables := []
    version := ⟨[[]]⟩
    levelsInOrder := by decide
    tablesWF := by decide
    tablesSorted := by decide }
  blob := id
  mergeOperator := some ⟨fun _ base operands => base.getD 0 + operands.sum⟩

/-- The point read, the scan and a batch of one key return the operand alone, a batch of three keys
the sum. -/
theorem operandOverValue_reads_differ : operandOverValue.index.WrittenInOrder ∧
    operandOverValue.resolveKey [107] 3 = some 5 ∧
    operandOverValue.scanValue [107] 3 = some 5 ∧
    operandOverValue.multiGet (plainReads 3) (fun _ => false) 3 [[107]] = [some 5] ∧
    operandOverValue.multiGet (plainReads 3) (fun _ => false) 3 [[107], [107], [107]] =
      [some 15, some 15, some 15] := by
  refine ⟨⟨?_, List.Pairwise.nil⟩, by decide, by decide, by decide, by decide⟩
  unfold SuperVersion.NewerThan
  decide

/-- Below the operand's sequence number all paths see the value. -/
theorem operandOverValue_reads_agree : operandOverValue.ReadsAgree [107] 2 := by
  have hwritten : operandOverValue.index.WrittenInOrder := by
    refine ⟨?_, List.Pairwise.nil⟩
    unfold SuperVersion.NewerThan
    decide
  refine (readsAgree_iff operandOverValue rfl hwritten List.nodup_nil rfl [107] 2).2 ?_
  have hhistory : operandOverValue.index.history [107] 2 = [⟨[107], 1, .value, 10⟩] := by decide
  intro e older hcons he
  rw [hhistory] at hcons
  obtain ⟨rfl, -⟩ := List.cons.inj hcons
  cases he

end Example

end BlobView

end LsmTree
