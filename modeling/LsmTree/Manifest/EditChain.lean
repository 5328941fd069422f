import LsmTree.Manifest.Diff

/-! The edit log along a chain of versions: every version is diffed against the one before it, the
edits are encoded, and recovery decodes and applies them in turn. -/
namespace LsmTree

open Codec

/-- The same recovered state; the list of blob files comes out of hash maps, in any order. -/
structure Recovery.Same (r s : Recovery) : Prop where
  currVersionId : r.currVersionId = s.currVersionId
  tableIds : r.tableIds = s.tableIds
  blobFileIds : r.blobFileIds.Perm s.blobFileIds
  gcStats : r.gcStats = s.gcStats
  restrictions : r.restrictions = s.restrictions
  blobRestrictions : r.blobRestrictions = s.blobRestrictions
  retentionFloor : r.retentionFloor = s.retentionFloor

theorem Recovery.Same.refl (r : Recovery) : r.Same r :=
  ⟨rfl, rfl, List.Perm.refl _, rfl, rfl, rfl, rfl⟩

/-- The encoded edits that lead from `prior` through the versions that follow. -/
def writeEdits (prior : TreeVersion) : List TreeVersion → Except ManifestError (List Bytes)
  | [] => .ok []
  | next :: rest => do
    let edit ← next.diff prior
    let payload ← edit.encodePayload
    let payloads ← writeEdits next rest
    return payload :: payloads

/-- Decodes and applies the edits one after the other. -/
def Recovery.replay (r : Recovery) (payloads : List Bytes) : Except ManifestError Recovery :=
  payloads.foldlM (fun r payload => decodePayload payload >>= r.applyEdit) r

namespace Recovery

variable {r : Recovery} {prior next : TreeVersion} {n : ℕ}

theorem Same.lookup_blobFileIds (h : r.Same prior.snapshot) (id : U64) :
    IdMap.lookup id r.blobFileIds = (prior.blobFiles.get id).map (·.checksum) := by
  have hdistinct : prior.snapshot.blobFileIds.Pairwise fun x y => x.1 ≠ y.1 :=
    List.pairwise_map.2 (prior.blobFiles.sorted.imp ne_of_lt)
  rw [← IdMap.lookup_perm hdistinct h.blobFileIds.symm]
  exact IdMap.lookup_map (fun _ (b : BlobFileHandle) => b.checksum) id prior.blobFiles.entries

theorem Same.distinctBlobs (h : r.Same prior.snapshot) :
    r.blobFileIds.Pairwise fun x y => x.1 ≠ y.1 := by
  apply h.blobFileIds.symm.pairwise _ fun hne he => hne he.symm
  exact List.pairwise_map.2 (prior.blobFiles.sorted.imp ne_of_lt)

theorem Same.applyEdit_diff (h : r.Same prior.snapshot) (hprior : prior.levels.length = n)
    (hnext : next.levels.length = n) (hfit : next.gcStats.CountsFit) {e : VersionEdit}
    (he : next.diff prior = .ok e) {payload : Bytes} (hpayload : e.encodePayload = .ok payload) :
    ∃ r', r.applyEdit e = .ok r' ∧ r'.Same next.snapshot := by
  have hblobs := diff_blobs h.lookup_blobFileIds he
  have hlevels := diff_levels hprior hnext he
  have hdistinct := foldl_putBlobFile_distinct e.addedBlobFiles
    (h.distinctBlobs.filter fun x => decide (x.1 ∉ e.removedBlobFileIds))
  refine ⟨_, by rw [applyEdit, diff_gcStats h.gcStats hfit he hpayload]; rfl, ?_⟩
  have hperm := IdMap.perm_of_lookup hdistinct
    (List.pairwise_map.2 (next.blobFiles.sorted.imp ne_of_lt)) fun id =>
      (hblobs id).trans (IdMap.lookup_map (fun _ (b : BlobFileHandle) => b.checksum) id
        next.blobFiles.entries).symm
  rw [show prior.levels.map TreeVersion.layout = r.tableIds from h.tableIds.symm] at hlevels
  unfold TreeVersion.diff at he
  split at he
  · cases he
  cases he
  refine ⟨rfl, hlevels, hperm, rfl, rfl, rfl, ?_⟩
  by_cases hsame : next.retentionFloor = prior.retentionFloor
  · simp only [if_pos hsame, Option.getD_none]
    rw [h.retentionFloor]
    exact hsame.symm
  · simp only [if_neg hsame, Option.getD_some]
    rfl

end Recovery

/-- Along every chain of versions of one level count whose edits can be written, replaying the
edits on the recovery state of the first gives the recovery state of the last. -/
theorem replay_writeEdits {n : ℕ} {first : TreeVersion} {rest : List TreeVersion}
    (hlevels : ∀ v ∈ first :: rest, v.levels.length = n)
    (hfit : ∀ v ∈ rest, v.gcStats.CountsFit) {payloads : List Bytes}
    (hwrite : writeEdits first rest = .ok payloads) {r : Recovery}
    (hr : r.Same first.snapshot) :
    ∃ r', r.replay payloads = .ok r' ∧ r'.Same ((first :: rest).getLast (by simp)).snapshot := by
  induction rest generalizing first r payloads with
  | nil =>
    cases hwrite
    exact ⟨r, rfl, hr⟩
  | cons next rest ih =>
    obtain ⟨hfirst, hrest⟩ := List.forall_mem_cons.1 hlevels
    obtain ⟨hnext, hfitRest⟩ := List.forall_mem_cons.1 hfit
    obtain ⟨e, he, hwrite⟩ := bind_eq_ok.1 hwrite
    obtain ⟨payload, hpayload, hwrite⟩ := bind_eq_ok.1 hwrite
    obtain ⟨later, hlater, hwrite⟩ := bind_eq_ok.1 hwrite
    cases hwrite
    obtain ⟨mid, happly, hmid⟩ :=
      hr.applyEdit_diff hfirst (hrest next List.mem_cons_self) hnext he hpayload
    obtain ⟨r', hreplay, hr'⟩ := ih hrest hfitRest hlater hmid
    have hdecode := decodePayload_encodePayload (Recovery.diff_gcStats_ne_nil he) hpayload
    refine ⟨r', ?_, hr'⟩
    unfold Recovery.replay at hreplay ⊢
    rw [List.foldlM_cons, hdecode]
    change r.applyEdit e >>= _ = _
    rw [happly]
    exact hreplay

section SampleChain

def sampleVersion (id : U64) (bound : Option Bytes) (gcStats : FragmentationMap) : TreeVersion where
  id := id
  levels := [[], [[⟨⟨5, 7, 0⟩, bound⟩]]]
  blobFiles := IdMap.empty.insert 3 ⟨9, 0⟩
  gcStats := gcStats
  retentionFloor := id

def staleBlobs (len : U64) : FragmentationMap :=
  IdMap.empty.insert 3 ⟨len, ⟨2 ^ 37, by decide⟩, ⟨2 ^ 37, by decide⟩⟩

def emptyVersion : TreeVersion :=
  ⟨0, [[], []], IdMap.empty, IdMap.empty, 0⟩

theorem sampleChain_replayed : ∃ payloads r',
    writeEdits emptyVersion [sampleVersion ⟨1, by decide⟩ none IdMap.empty,
      sampleVersion ⟨2, by decide⟩ (some [⟨4, by decide⟩]) (staleBlobs ⟨8, by decide⟩),
      emptyVersion] = .ok payloads ∧
    emptyVersion.snapshot.replay payloads = .ok r' ∧ r'.Same emptyVersion.snapshot := by
  have hwrite : ∃ payloads, writeEdits emptyVersion
      [sampleVersion ⟨1, by decide⟩ none IdMap.empty,
        sampleVersion ⟨2, by decide⟩ (some [⟨4, by decide⟩]) (staleBlobs ⟨8, by decide⟩),
        emptyVersion] = .ok payloads := ⟨_, rfl⟩
  obtain ⟨payloads, hwrite⟩ := hwrite
  obtain ⟨r', hreplay, hr'⟩ := replay_writeEdits (n := 2) (by decide) (by decide) hwrite
    (Recovery.Same.refl _)
  exact ⟨payloads, r', hwrite, hreplay, hr'⟩

/-- The number of stale blobs is written in four bytes: 2^32 of them are read back as none. -/
theorem staleBlobs_wrap : ∃ payloads r',
    writeEdits emptyVersion [sampleVersion ⟨1, by decide⟩ none (staleBlobs ⟨2 ^ 32, by decide⟩)] =
      .ok payloads ∧
    emptyVersion.snapshot.replay payloads = .ok r' ∧
    r'.gcStats = staleBlobs ⟨0, by decide⟩ ∧
    r'.gcStats ≠
      (sampleVersion ⟨1, by decide⟩ none (staleBlobs ⟨2 ^ 32, by decide⟩)).snapshot.gcStats :=
  ⟨_, _, rfl, rfl, by decide +kernel, by decide +kernel⟩

end SampleChain

end LsmTree
