import LsmTree.BlobTree.Relocation

/-! Which blob files a compaction rewrites. -/
namespace LsmTree

open Codec RawKey List

variable {K : Type*}

/-- `FragmentationMap`, as far as `is_dead` reads it: the stale bytes of a blob file. -/
abbrev StaleBytes := ℕ → Option ℕ

namespace Table

def indirections (t : Table K Bytes) : List BlobIndirection :=
  (t.entries.filter fun e => e.valueType = .indirection).filterMap fun e =>
    BlobIndirection.decode e.value

def blobFileRefs (t : Table K Bytes) : List ℕ := t.indirections.map (·.vhandle.blobFileId)

end Table

namespace BlobFile

variable [RawKey K]

def totalUncompressedBytes (f : BlobFile K) : ℕ := (f.frames.map (·.uncompressedLen)).sum

def isDead (f : BlobFile K) (stats : StaleBytes) : Bool := stats f.id == some f.totalUncompressedBytes

end BlobFile

def InternalValue.indirection (e : InternalValue K Bytes) : Option BlobIndirection :=
  if e.valueType = .indirection then BlobIndirection.decode e.value else none

def handlesOf (items : List (InternalValue K Bytes)) : List BlobIndirection :=
  items.filterMap InternalValue.indirection

theorem Table.mem_blobFileRefs_iff (t : Table K Bytes) (id : ℕ) :
    id ∈ t.blobFileRefs ↔ id ∈ (handlesOf t.entries).map (·.vhandle.blobFileId) := by
  have hsame : t.indirections = handlesOf t.entries := by
    unfold Table.indirections handlesOf
    rw [filterMap_filter]
    congr 1
    funext e
    by_cases he : e.valueType = .indirection
    · simp [InternalValue.indirection, he]
    · simp [InternalValue.indirection, he]
  rw [Table.blobFileRefs, hsame]

variable [RawKey K]

/-- The choices that rest on floating point. -/
structure RewritePolicy (K : Type*) [RawKey K] where
  isStale : BlobFile K → Bool
  cutoffPoint : ℕ → ℕ

section Pick

variable (policy : RewritePolicy K) (version : Version (Table K Bytes))
  (blobFiles : List (BlobFile K)) (gcStats : StaleBytes) (pickedTables : List ℕ)

/-- The linked, stale files that are not dead, by id; a missing table or file is a panic. -/
def rewriteCandidates : Option (List (BlobFile K)) := do
  let tables ← pickedTables.mapM version.getTable
  let linked ← (tables.flatMap Table.blobFileRefs).mapM fun id =>
    blobFiles.find? fun f => decide (f.id = id)
  let stale := (linked.filter policy.isStale).filter fun f => !f.isDead gcStats
  return (stale.pwFilter fun a b => a.id ≠ b.id).insertionSort fun a b => a.id ≤ b.id

def dropReferenced (files : List (BlobFile K)) (t : Table K Bytes) : List (BlobFile K) :=
  if t.id ∈ pickedTables then files
  else
    let otherRefs := t.blobFileRefs.filter fun id => files.any fun f => decide (f.id = id)
    otherRefs.foldl (fun files id => files.filter fun f => decide (f.id ≠ id)) files

/-- `pick_blob_files_to_rewrite`; draining from behind the end is a panic too -/
def pickBlobFilesToRewrite : Option (List (BlobFile K)) := do
  let candidates ← rewriteCandidates policy version blobFiles gcStats pickedTables
  if candidates.length < policy.cutoffPoint candidates.length then none
  else
    return version.tables.foldl (dropReferenced pickedTables)
      (candidates.take (policy.cutoffPoint candidates.length))

end Pick

section Removal

variable {pickedTables : List ℕ}

variable {files : List (BlobFile K)} {f : BlobFile K}

theorem mem_foldl_filter_ne {ids : List ℕ} :
    f ∈ ids.foldl (fun files id => files.filter fun f => decide (f.id ≠ id)) files ↔
      f ∈ files ∧ f.id ∉ ids := by
  induction ids generalizing files with
  | nil => simp
  | cons id ids ih =>
    rw [foldl_cons, ih, mem_filter, decide_eq_true_eq, mem_cons, not_or]
    tauto

theorem mem_dropReferenced {t : Table K Bytes} :
    f ∈ dropReferenced pickedTables files t ↔
      f ∈ files ∧ (f.id ∈ t.blobFileRefs → t.id ∈ pickedTables) := by
  unfold dropReferenced
  by_cases ht : t.id ∈ pickedTables
  · rw [if_pos ht]
    exact ⟨fun hf => ⟨hf, fun _ => ht⟩, And.left⟩
  · rw [if_neg ht, mem_foldl_filter_ne]
    constructor
    · rintro ⟨hf, href⟩
      refine ⟨hf, fun hmem => absurd ?_ href⟩
      exact mem_filter.2 ⟨hmem, any_eq_true.2 ⟨f, hf, by simp⟩⟩
    · rintro ⟨hf, href⟩
      exact ⟨hf, fun hmem => ht (href (mem_of_mem_filter hmem))⟩

theorem mem_foldl_dropReferenced {tables : List (Table K Bytes)} :
    f ∈ tables.foldl (dropReferenced pickedTables) files ↔
      f ∈ files ∧ ∀ t ∈ tables, f.id ∈ t.blobFileRefs → t.id ∈ pickedTables := by
  induction tables generalizing files with
  | nil => simp
  | cons t ts ih =>
    rw [foldl_cons, ih, mem_dropReferenced, forall_mem_cons, and_assoc]

end Removal

theorem readBlob_filter [DecidableEq K] {blobFiles : List (BlobFile K)} {ids : List ℕ} {key : K}
    {h : ValueHandle} (hid : h.blobFileId ∉ ids) :
    readBlob (blobFiles.filter fun f => decide (f.id ∉ ids)) key h = readBlob blobFiles key h := by
  unfold readBlob
  rw [find?_filter]
  congr 2
  funext f
  by_cases hf : f.id = h.blobFileId
  · simp [hf, hid]
  · simp [hf]

/-- Every table with a handle into a file picked for rewriting is itself picked, so the handles of
the other tables read the same once the rewritten files are gone. -/
theorem pickBlobFilesToRewrite_closed [DecidableEq K] {policy : RewritePolicy K}
    {version : Version (Table K Bytes)} {blobFiles : List (BlobFile K)} {gcStats : StaleBytes}
    {pickedTables : List ℕ} {files : List (BlobFile K)}
    (h : pickBlobFilesToRewrite policy version blobFiles gcStats pickedTables = some files) :
    (∀ f ∈ files, ∀ t ∈ version.tables, ∀ e ∈ t.entries, ∀ i, e.indirection = some i →
      i.vhandle.blobFileId = f.id → t.id ∈ pickedTables) ∧
    ∀ t ∈ version.tables, t.id ∉ pickedTables → ∀ e ∈ t.entries, ∀ i, e.indirection = some i →
      readBlob (blobFiles.filter fun f => decide (f.id ∉ files.map (·.id))) e.userKey i.vhandle =
        readBlob blobFiles e.userKey i.vhandle := by
  have hclosed : ∀ f ∈ files, ∀ t ∈ version.tables, ∀ e ∈ t.entries, ∀ i,
      e.indirection = some i → i.vhandle.blobFileId = f.id → t.id ∈ pickedTables := by
    intro f hf t ht e he i hi hid
    obtain ⟨candidates, -, h⟩ := Option.bind_eq_some_iff.1 h
    split at h
    · cases h
    cases h
    apply (mem_foldl_dropReferenced.1 hf).2 t ht
    rw [Table.mem_blobFileRefs_iff, ← hid]
    exact mem_map_of_mem (mem_filterMap.2 ⟨e, he, hi⟩)
  refine ⟨hclosed, fun t ht hpicked e he i hi => readBlob_filter fun hmem => ?_⟩
  obtain ⟨f, hf, hid⟩ := mem_map.1 hmem
  exact hpicked (hclosed f hf t ht e he i hi hid.symm)

def sharedBlobs : Version (Table (List Byte) Bytes) :=
  ⟨[[[⟨1, ⟨[107], [107]⟩, [handleEntry 107 10 1 0, handleEntry 107 5 0 0], []⟩]],
    [[⟨2, ⟨[107], [107]⟩, [handleEntry 107 4 1 0], []⟩]]]⟩

/-- Of the files that table 1 refers to only the first is rewritten with it. -/
theorem sharedBlobs_picked : ∃ files,
    pickBlobFilesToRewrite ⟨fun _ => true, id⟩ sharedBlobs [flushedFile, ingestedFile]
      (fun _ => none) [1] = some files ∧ files.map (·.id) = [0] ∧
    ∀ f ∈ files, ∀ t ∈ sharedBlobs.tables, ∀ e ∈ t.entries, ∀ i, e.indirection = some i →
      i.vhandle.blobFileId = f.id → t.id ∈ [1] := by
  have hpick : pickBlobFilesToRewrite ⟨fun _ => true, id⟩ sharedBlobs
      [flushedFile, ingestedFile] (fun _ => none) [1] = some [flushedFile] := rfl
  exact ⟨_, hpick, rfl, (pickBlobFilesToRewrite_closed hpick).1⟩

end LsmTree
