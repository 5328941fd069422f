import LsmTree.BlobTree.BlobFile
import LsmTree.Flush
import LsmTree.Table.WriterOrder

/-! The flush of a key-value separated tree. -/
namespace LsmTree

open Codec RawKey

variable {K : Type*} [LinearOrder K] [RawKey K]

structure KvSeparationOptions where
  compression : Compression
  fileTargetSize : ℕ
  separationThreshold : ℕ

/-- `value.len() as u32` -/
def InternalValue.valueSize (e : InternalValue K Bytes) : ℕ := e.value.length % 2 ^ 32

def InternalValue.separated (e : InternalValue K Bytes) (vhandle : ValueHandle) :
    InternalValue K Bytes :=
  { e with
    valueType := .indirection
    value := (⟨vhandle, e.valueSize⟩ : BlobIndirection).encode }

/-- One item of the flush loop: what goes to the table, and the blob writer after it. -/
def separate (threshold : ℕ) (w : BlobFileWriter K) (item : InternalValue K Bytes) :
    Except BlobError (InternalValue K Bytes × BlobFileWriter K) :=
  if item.isTombstone then .ok ({ item with value := [] }, w)
  else if threshold ≤ item.valueSize then do
    let r ← w.write item.userKey item.seqno item.value
    return (item.separated r.1, r.2)
  else .ok (item, w)

def separateAll (threshold : ℕ) : BlobFileWriter K → List (InternalValue K Bytes) →
    Except BlobError (List (InternalValue K Bytes) × BlobFileWriter K)
  | w, [] => .ok ([], w)
  | w, item :: items => do
    let r ← separate threshold w item
    let rest ← separateAll threshold r.2 items
    return (r.1 :: rest.1, rest.2)

structure BlobFlush (K : Type*) [RawKey K] where
  tables : List (Table K Bytes)
  blobFiles : List (BlobFile K)

structure BlobFlushOptions (K : Type*) extends FlushOptions K Bytes where
  kv : KvSeparationOptions
  blobFileIds : ℕ → ℕ
  blobFileIds_injective : Function.Injective blobFileIds
  /-- a table that nothing was written to has not reached its target size -/
  outputFull_nil : outputFull 0 [] = false

namespace BlobFlushOptions

variable (o : BlobFlushOptions K)

def flushToTablesWithRt (sealed : List (Memtable K Bytes)) : Except BlobError (BlobFlush K) := do
  let blobWriter := BlobFileWriter.new o.kv.fileTargetSize o.kv.compression o.kv.compression
    o.blobFileIds o.blobFileIds_injective
  let r ← separateAll o.kv.separationThreshold blobWriter (o.items sealed)
  return {
    tables := (MultiWriter.new o.newTableIds o.outputFull o.registered false
      (FlushOptions.rangeTombstones sealed)).writeAll r.1
    blobFiles := r.2.finish }

end BlobFlushOptions

/-- The table holds the entry itself, or in place of a value a handle to a blob of the same bytes. -/
def Stored (files : List (BlobFile K)) (e e' : InternalValue K Bytes) : Prop :=
  e' = e ∨ e.valueType = .value ∧ ∃ vhandle, e' = e.separated vhandle ∧
    readBlob files e.userKey vhandle = some e.value

def BlobFlush.HoldsStream (r : BlobFlush K) (items : List (InternalValue K Bytes)) : Prop :=
  List.Forall₂ (Stored r.blobFiles) items (r.tables.flatMap (·.entries))

/-- What the write methods put into a memtable: tombstones are empty, and nothing is a handle. -/
def Memtable.FromWrites (m : Memtable K Bytes) : Prop :=
  ∀ e ∈ m.entries, (e.isTombstone = true → e.value = []) ∧ e.valueType ≠ .indirection

inductive Separated (threshold : ℕ) (files : List (BlobFile K)) :
    InternalValue K Bytes → InternalValue K Bytes → Prop
  | tombstone {e : InternalValue K Bytes} : e.isTombstone = true → Separated threshold files e { e with value := [] }
  | blob {e : InternalValue K Bytes} {vhandle : ValueHandle} : e.isTombstone = false → threshold ≤ e.valueSize →
      readBlob files e.userKey vhandle = some e.value →
      Separated threshold files e (e.separated vhandle)
  | inline {e : InternalValue K Bytes} : e.isTombstone = false → e.valueSize < threshold → Separated threshold files e e

section Loop

variable {threshold : ℕ} {w w' : BlobFileWriter K} {e e' : InternalValue K Bytes}
  {items items' : List (InternalValue K Bytes)}

def BlobFileWriter.Keeps (w w' : BlobFileWriter K) : Prop :=
  ∀ c h f, Holds w.finish c h f → Holds w'.finish c h f

theorem BlobFileWriter.Keeps.read {key : K} {h : ValueHandle} {v : Bytes} (hk : w.Keeps w')
    (hv : readBlob w.finish key h = some v) : readBlob w'.finish key h = some v := by
  obtain ⟨c, f, hf, rfl, hread⟩ := holds_of_read hv
  rw [(hk c h f hf).read BlobFileWriter.finish_ids_nodup, hread]

theorem Separated.mono (h : Separated threshold w.finish e e') (hk : w.Keeps w') :
    Separated threshold w'.finish e e' := by
  cases h with
  | tombstone ht => exact .tombstone ht
  | blob ht hsize hread => exact .blob ht hsize (hk.read hread)
  | inline ht hsize => exact .inline ht hsize

theorem write_reads {key : K} {seqno : ℕ} {value : Bytes} {r : ValueHandle × BlobFileWriter K}
    (hc : w.recorded = w.compression) (h : w.write key seqno value = .ok r) :
    readBlob r.2.finish key r.1 = some value ∧ w.Keeps r.2 ∧ r.2.recorded = r.2.compression := by
  obtain ⟨hcap, f, hkey, -, hlen, hvalue, rfl⟩ := BlobFileWriter.writeRaw_ok h
  obtain ⟨hcomp, hrec⟩ := w.append_codecs f
  refine ⟨?_, fun _ _ _ => BlobFileWriter.append_keeps f, by rw [hcomp, hrec, hc]⟩
  have hsmall : value.length % 2 ^ 32 = value.length := by
    apply Nat.mod_eq_of_lt
    have : maxDecompressionSize < 2 ^ 32 := by decide
    omega
  rw [← hkey, (w.append_holds f).read BlobFileWriter.finish_ids_nodup, hlen, hvalue, hc, hsmall,
    w.compression.decompress_compress]

theorem separate_spec (hc : w.recorded = w.compression)
    (h : separate threshold w e = .ok (e', w')) :
    Separated threshold w'.finish e e' ∧ w.Keeps w' ∧ w'.recorded = w'.compression := by
  unfold separate at h
  split_ifs at h with ht hsize
  · cases h
    exact ⟨.tombstone ht, fun _ _ _ => id, hc⟩
  · obtain ⟨r, hr, hret⟩ := bind_eq_ok.1 h
    cases hret
    obtain ⟨hread, hkeeps, hc'⟩ := write_reads hc hr
    exact ⟨.blob (Bool.not_eq_true _ ▸ ht) hsize hread, hkeeps, hc'⟩
  · cases h
    exact ⟨.inline (Bool.not_eq_true _ ▸ ht) (not_le.1 hsize), fun _ _ _ => id, hc⟩

theorem separateAll_spec (hc : w.recorded = w.compression)
    (h : separateAll threshold w items = .ok (items', w')) :
    List.Forall₂ (Separated threshold w'.finish) items items' ∧ w.Keeps w' := by
  induction items generalizing w items' with
  | nil =>
    cases h
    exact ⟨.nil, fun _ _ _ => id⟩
  | cons item items ih =>
    obtain ⟨r, hr, h⟩ := bind_eq_ok.1 h
    obtain ⟨rest, hrest, h⟩ := bind_eq_ok.1 h
    cases h
    obtain ⟨hitem, hkeeps, hc'⟩ := separate_spec hc hr
    obtain ⟨hall, hkeeps'⟩ := ih hc' hrest
    exact ⟨.cons (hitem.mono hkeeps') hall, fun _ _ _ hv => hkeeps' _ _ _ (hkeeps _ _ _ hv)⟩

theorem Separated.stored_iff {files : List (BlobFile K)} (h : Separated threshold files e e')
    (hempty : e.isTombstone = true → e.value = []) (hind : e.valueType ≠ .indirection) :
    Stored files e e' ↔ (e.isMergeOperand = true → e.valueSize < threshold) := by
  cases h with
  | tombstone ht =>
    have hself : ({ e with value := [] } : InternalValue K Bytes) = e := by rw [← hempty ht]
    simp [Stored, hself, InternalValue.not_operand_of_isTombstone ht]
  | inline ht hsize => simp [Stored, hsize]
  | @blob vhandle ht hsize hread =>
    have hne : e.separated vhandle ≠ e := fun heq => hind (congrArg (·.valueType) heq).symm
    constructor
    · rintro (heq | ⟨htype, -⟩) hop
      · exact absurd heq hne
      · simp [InternalValue.isMergeOperand, htype] at hop
    · intro hsmall
      refine Or.inr ⟨?_, vhandle, rfl, hread⟩
      -- neither a tombstone nor a handle, and too large for an operand
      have hop : e.isMergeOperand ≠ true := fun hop => absurd (hsmall hop) (not_lt.2 hsize)
      cases htype : e.valueType <;>
        simp_all [InternalValue.isMergeOperand, InternalValue.isTombstone, ValueType.isTombstone]

theorem forall₂_stored_iff {files : List (BlobFile K)}
    (h : List.Forall₂ (Separated threshold files) items items')
    (hitems : ∀ e ∈ items, (e.isTombstone = true → e.value = []) ∧ e.valueType ≠ .indirection) :
    List.Forall₂ (Stored files) items items' ↔
      ∀ e ∈ items, e.isMergeOperand = true → e.valueSize < threshold := by
  induction h with
  | nil => simp
  | @cons e e' items items' he _ ih =>
    obtain ⟨hhead, htail⟩ := List.forall_mem_cons.1 hitems
    rw [List.forall₂_cons, he.stored_iff hhead.1 hhead.2, ih htail, List.forall_mem_cons]

end Loop

omit [RawKey K] in
theorem FlushOptions.items_fromWrites (o : FlushOptions K Bytes) {sealed : List (Memtable K Bytes)}
    (h : ∀ m ∈ sealed, m.FromWrites) :
    ∀ e ∈ o.items sealed, (e.isTombstone = true → e.value = []) ∧ e.valueType ≠ .indirection := by
  intro e he
  obtain ⟨f, hf, -, -, rfl | htype | htype⟩ := StreamConfig.run_yields [] _ e he
  · obtain ⟨es, hes, hmem⟩ := KWayMerge.mem_mergeAll.1 hf
    obtain ⟨m, hm, rfl⟩ := List.mem_map.1 hes
    exact h m hm e hmem
  · simp [htype, InternalValue.isTombstone, ValueType.isTombstone]
  · simp [htype, InternalValue.isTombstone, ValueType.isTombstone]

namespace BlobFlushOptions

/-- The flushed tables hold the flush stream, with nothing but values moved to blob files, exactly
when no merge operand of the stream reaches the separation threshold; a flush of range tombstones
alone writes a marker entry that the stream does not have. -/
theorem holdsStream_iff (o : BlobFlushOptions K) {sealed : List (Memtable K Bytes)}
    (hw : ∀ m ∈ sealed, m.FromWrites) {r : BlobFlush K} (h : o.flushToTablesWithRt sealed = .ok r) :
    r.HoldsStream (o.items sealed) ↔
      (∀ e ∈ o.items sealed, e.isMergeOperand = true → e.valueSize < o.kv.separationThreshold) ∧
        (o.items sealed = [] → FlushOptions.rangeTombstones sealed = []) := by
  obtain ⟨⟨items', w'⟩, hsep, hret⟩ := bind_eq_ok.1 h
  cases hret
  obtain ⟨hall, -⟩ := separateAll_spec rfl hsep
  have hlen := hall.length_eq
  by_cases hnil : o.items sealed = []
  · have hnil' : items' = [] := List.length_eq_zero_iff.1 (by rw [← hlen, hnil]; rfl)
    subst hnil'
    rw [BlobFlush.HoldsStream, hnil, List.forall₂_nil_left_iff, writeAll_flush_nil]
    simp
  · have hne' : items' ≠ [] := by
      rintro rfl
      exact hnil (List.length_eq_zero_iff.1 hlen)
    rw [BlobFlush.HoldsStream, writeAll_contents (Or.inr (windows_ne_nil o.outputFull_nil hne')),
      forall₂_stored_iff hall (o.items_fromWrites hw)]
    simp [hnil]

section Example

def concatOperator : MergeOperator (List Byte) Bytes := ⟨fun _ base ops => base.getD [] ++ ops.flatten⟩

def concatFlush (threshold : ℕ) : BlobFlushOptions (List Byte) where
  seqnoThreshold := 0
  mergeOperator := some concatOperator
  outputFull _ _ := false
  newTableIds := id
  kv := ⟨Compression.none, 1000, threshold⟩
  blobFileIds := id
  blobFileIds_injective := Function.injective_id
  outputFull_nil := rfl

def operandMemtable : Memtable (List Byte) Bytes :=
  ⟨[⟨[107], 2, .mergeOperand, [2, 2, 2, 2]⟩, ⟨[107], 1, .value, [1]⟩], [], by decide⟩

def operandFrame : Frame (List Byte) :=
  ⟨[107], 2, 4, [2, 2, 2, 2], by decide, by decide, by decide, by decide⟩

def separatedTable : Table (List Byte) Bytes where
  id := 0
  keyRange := ⟨[107], [107]⟩
  entries := [⟨[107], 2, .indirection, [0, 0, 4, 4]⟩, ⟨[107], 1, .value, [1]⟩]
  rangeTombstones := []

/-- An operand of four bytes at a threshold of four becomes a handle. -/
theorem largeOperand_separated : ∃ r, (concatFlush 4).flushToTablesWithRt [operandMemtable] = .ok r ∧
    r.tables = [separatedTable] ∧ ¬ r.HoldsStream ((concatFlush 4).items [operandMemtable]) := by
  refine ⟨⟨[separatedTable], [⟨0, Compression.none, [operandFrame]⟩]⟩, rfl, rfl, ?_⟩
  have hitems : (concatFlush 4).items [operandMemtable] = operandMemtable.entries := by decide
  intro hholds
  rw [BlobFlush.HoldsStream, hitems] at hholds
  -- the first entry is an operand before and a handle after
  obtain ⟨heq | ⟨htype, -⟩, -⟩ := List.forall₂_cons.1 hholds
  · exact absurd (congrArg (·.valueType) heq) (by decide)
  · cases htype

/-- Below the threshold the same operand stays an operand. -/
theorem smallOperand_stored : ∃ r, (concatFlush 5).flushToTablesWithRt [operandMemtable] = .ok r ∧
    r.HoldsStream ((concatFlush 5).items [operandMemtable]) := by
  have hw : ∀ m ∈ [operandMemtable], m.FromWrites := by
    simp only [List.mem_singleton, forall_eq]
    unfold Memtable.FromWrites
    decide
  refine ⟨_, rfl, (holdsStream_iff (concatFlush 5) hw rfl).2 ⟨by decide, by decide⟩⟩

end Example

end BlobFlushOptions

end LsmTree
