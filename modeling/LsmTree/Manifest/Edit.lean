import LsmTree.Manifest.Framing

/-! The edit log of the manifest: one framed record for each version that was installed after
the snapshot, and its replay. -/
namespace LsmTree

open Codec Option Nat

abbrev U8 := Fin (256 ^ 1)

abbrev U64 := Fin (256 ^ 8)

abbrev U128 := Fin (256 ^ 16)

structure TableDesc where
  id : U64
  checksum : U128
  globalSeqno : U64
  deriving DecidableEq, Repr

structure ChangedLevel where
  level : U8
  runs : List (List TableDesc)
  deriving DecidableEq, Repr

structure AddedBlobFile where
  id : U64
  checksum : U128
  deriving DecidableEq, Repr

structure VersionEdit where
  newVersionId : U64
  changedLevels : List ChangedLevel
  addedBlobFiles : List AddedBlobFile
  removedBlobFileIds : List U64
  gcStats : Option Bytes
  restrictions : List (U64 × Bytes)
  blobRestrictions : List (U64 × U64)
  retentionFloor : Option U64
  deriving DecidableEq, Repr

def checksumTypeXxh3 : U8 := ⟨0, by decide⟩

section Encode

def encodeBytes (bytes : Bytes) : Except ManifestError Bytes := do
  let len ← u32Len ManifestError.unrecoverable bytes.length
  return write len ++ bytes

def encodeTableDesc (t : TableDesc) : Except ManifestError Bytes :=
  return write t.id ++ (write checksumTypeXxh3 ++ (write t.checksum ++ write t.globalSeqno))

def encodeChangedLevel (cl : ChangedLevel) : Except ManifestError Bytes := do
  let runs ← writeList .unrecoverable (writeList .unrecoverable encodeTableDesc) cl.runs
  return write cl.level ++ runs

def encodeAddedBlobFile (b : AddedBlobFile) : Except ManifestError Bytes :=
  return write b.id ++ (write checksumTypeXxh3 ++ write b.checksum)

def encodeRestriction (r : U64 × Bytes) : Except ManifestError Bytes := do
  let key ← encodeBytes r.2
  return write r.1 ++ key

def encodeFrontier (r : U64 × U64) : Except ManifestError Bytes := return write r.1 ++ write r.2

/-- The appended sections have no marker of their own, so a retention floor is always preceded
by the blob frontiers. -/
def VersionEdit.encodeFrontiers (e : VersionEdit) : Except ManifestError Bytes :=
  if e.blobRestrictions ≠ [] ∨ e.retentionFloor.isSome then
    writeList .unrecoverable encodeFrontier e.blobRestrictions
  else .ok []

def VersionEdit.encodeAppended (e : VersionEdit) : Except ManifestError Bytes := do
  let frontiers ← e.encodeFrontiers
  return frontiers ++ (e.retentionFloor.map write).getD []

def VersionEdit.encodePayload (e : VersionEdit) : Except ManifestError Bytes := do
  let levels ← writeList .unrecoverable encodeChangedLevel e.changedLevels
  let added ← writeList .unrecoverable encodeAddedBlobFile e.addedBlobFiles
  let removed ← writeList .unrecoverable (fun id => pure (write id)) e.removedBlobFileIds
  let gcStats ← encodeBytes (e.gcStats.getD [])
  let restrictions ← writeList .unrecoverable encodeRestriction e.restrictions
  let appended ← e.encodeAppended
  return write e.newVersionId ++
    (levels ++ (added ++ (removed ++ (gcStats ++ (restrictions ++ appended)))))

end Encode

section Decode

def readLenBytes : Reader Bytes := do
  let len ← read 4
  readBytes len.val

def readTableDesc : Reader TableDesc := do
  let id ← read 8
  let checksumType ← read 1
  guard (checksumType = checksumTypeXxh3)
  let checksum ← read 16
  let globalSeqno ← read 8
  return ⟨id, checksum, globalSeqno⟩

def readChangedLevel : Reader ChangedLevel := do
  let level ← read 1
  let runs ← readList (readList readTableDesc)
  return ⟨level, runs⟩

def readAddedBlobFile : Reader AddedBlobFile := do
  let id ← read 8
  let checksumType ← read 1
  guard (checksumType = checksumTypeXxh3)
  let checksum ← read 16
  return ⟨id, checksum⟩

def readRestriction : Reader (U64 × Bytes) := do
  let id ← read 8
  let key ← readLenBytes
  return (id, key)

def readFrontier : Reader (U64 × U64) := do
  let id ← read 8
  let frontier ← read 8
  return (id, frontier)

/-- An appended section: absent when the payload ends before it. -/
def readUnlessEnd {α : Type} (absent : α) (p : Reader α) : Reader α := fun bytes =>
  if bytes.isEmpty then some (absent, bytes) else p.run bytes

def readEdit : Reader VersionEdit := do
  let newVersionId ← read 8
  let changedLevels ← readList readChangedLevel
  let addedBlobFiles ← readList readAddedBlobFile
  let removedBlobFileIds ← readList (read 8)
  let gcStats ← readLenBytes
  let restrictions ← readList readRestriction
  let blobRestrictions ← readUnlessEnd [] (readList readFrontier)
  let retentionFloor ← readUnlessEnd none (some <$> read 8)
  return ⟨newVersionId, changedLevels, addedBlobFiles, removedBlobFileIds,
    if gcStats.isEmpty then none else some gcStats, restrictions, blobRestrictions, retentionFloor⟩

/-- A well-formed edit takes its payload up exactly. -/
def decodePayload (bytes : Bytes) : Except ManifestError VersionEdit :=
  match readEdit.run bytes with
  | some (e, []) => .ok e
  | _ => .error (.invalidHeader "VersionEdit")

end Decode

section Replay

inductive ManifestRecoveryMode where
  | absoluteConsistency
  | tolerateCorruptedTailRecords
  | pointInTimeRecovery
  | skipAnyCorruptedRecords
  deriving DecidableEq, Repr

def tailDefectKind : FramedRecordOutcome → String
  | .tailTruncation => "truncated"
  | .checksumMismatch .. => "checksum-mismatch"
  | .badHeader => "bad-header"
  | .lenMismatch .. => "len-mismatch"
  | .ok .. => "ok"

variable (digest : Digest)

/-- `append_to`: the bytes of one record -/
def VersionEdit.record (e : VersionEdit) : Except ManifestError Bytes := do
  let payload ← e.encodePayload
  writeFramedRecord digest payload

def replayFrom (mode : ManifestRecoveryMode) : ℕ → Bytes → Except ManifestError (List VersionEdit)
  | 0, _ => .ok []
  | fuel + 1, bytes =>
    -- no bytes left at a record boundary: the end of the log
    if bytes.isEmpty then .ok []
    else match readFramedRecord digest (2 ^ 64 - 1) none bytes with
      | .ok payload rest => do
        let e ← decodePayload payload
        let es ← replayFrom mode fuel rest
        return e :: es
      | .tailTruncation =>
        if mode = .absoluteConsistency then .error (.tornManifestEditLog "truncated") else .ok []
      | outcome =>
        if mode = .pointInTimeRecovery ∨ mode = .skipAnyCorruptedRecords then .ok []
        else .error (.tornManifestEditLog (tailDefectKind outcome))

/-- `replay_edits`. A record takes at least a byte, so the log is longer than it has records. -/
def replayEdits (mode : ManifestRecoveryMode) (log : Bytes) :
    Except ManifestError (List VersionEdit) :=
  replayFrom digest mode (log.length + 1) log

end Replay

section RoundTrip

theorem encodeBytes_roundTrip : RoundTrip encodeBytes readLenBytes := by
  intro value bytes h
  obtain ⟨len, hlen, h⟩ := bind_eq_ok.1 h
  cases h
  apply (reads_write len).bind
  rw [u32Len_eq_ok hlen]
  exact reads_bytes value

theorem encodeTableDesc_roundTrip : RoundTrip encodeTableDesc readTableDesc := by
  rintro t _ ⟨⟩
  exact (reads_write t.id).bind ((reads_write checksumTypeXxh3).bind
    (Reads.of_guard rfl ((reads_write t.checksum).bind (reads_write t.globalSeqno).map)))

theorem encodeChangedLevel_roundTrip : RoundTrip encodeChangedLevel readChangedLevel := by
  intro cl bytes h
  obtain ⟨runs, hruns, h⟩ := bind_eq_ok.1 h
  cases h
  exact (reads_write cl.level).bind (encodeTableDesc_roundTrip.list.list cl.runs runs hruns).map

theorem encodeAddedBlobFile_roundTrip : RoundTrip encodeAddedBlobFile readAddedBlobFile := by
  rintro b _ ⟨⟩
  exact (reads_write b.id).bind ((reads_write checksumTypeXxh3).bind
    (Reads.of_guard rfl (reads_write b.checksum).map))

theorem encodeRestriction_roundTrip : RoundTrip encodeRestriction readRestriction := by
  intro r bytes h
  obtain ⟨key, hkey, h⟩ := bind_eq_ok.1 h
  cases h
  exact (reads_write r.1).bind (encodeBytes_roundTrip r.2 key hkey).map

theorem encodeFrontier_roundTrip : RoundTrip encodeFrontier readFrontier := by
  rintro r _ ⟨⟩
  exact (reads_write r.1).bind (reads_write r.2).map

theorem encodeId_roundTrip :
    RoundTrip (fun id : U64 => (pure (write id) : Except ManifestError Bytes)) (read 8) := by
  rintro id _ ⟨⟩
  exact reads_write id

variable {α : Type}

variable {bytes : Bytes}

theorem readUnlessEnd_of_ne {absent : α} {p : Reader α} (h : bytes ≠ []) :
    (readUnlessEnd absent p).run bytes = p.run bytes := by
  cases bytes with
  | nil => exact absurd rfl h
  | cons b bytes => rfl

theorem writeList_ne_nil {enc : α → Except ManifestError Bytes} {as : List α}
    (h : writeList .unrecoverable enc as = .ok bytes) (rest : Bytes) :
    bytes ++ rest ≠ [] := by
  obtain ⟨count, -, h⟩ := bind_eq_ok.1 h
  obtain ⟨items, -, h⟩ := bind_eq_ok.1 h
  cases h
  intro hnil
  have hlen := congrArg List.length hnil
  simp at hlen

theorem write_ne_nil {n : ℕ} (x : Fin (256 ^ (n + 1))) : write x ≠ [] := by
  intro hnil
  have hlen := congrArg List.length hnil
  simp at hlen

variable {e : VersionEdit}

theorem encodeAppended_read (h : e.encodeAppended = .ok bytes) {β : Type}
    (f : List (U64 × U64) → Option U64 → β) :
    (do
      let frontiers ← readUnlessEnd [] (readList readFrontier)
      let floor ← readUnlessEnd none (some <$> read 8)
      return f frontiers floor : Reader β).run bytes =
        some (f e.blobRestrictions e.retentionFloor, []) := by
  obtain ⟨frontiers, hfrontiers, h⟩ := bind_eq_ok.1 h
  cases h
  unfold VersionEdit.encodeFrontiers at hfrontiers
  split at hfrontiers
  case isTrue hsome =>
    have hread := encodeFrontier_roundTrip.list _ _ hfrontiers
      ((e.retentionFloor.map write).getD [])
    rw [StateT.run_bind, readUnlessEnd_of_ne (writeList_ne_nil hfrontiers _), hread]
    cases hfloor : e.retentionFloor with
    | none => rfl
    | some floor =>
      simp only [map_some, getD_some, bind_eq_bind, bind_some]
      rw [StateT.run_bind, readUnlessEnd_of_ne (write_ne_nil floor)]
      have hread := (reads_write floor).map (f := some)
      rw [map_eq_pure_bind, hread.run_eq]
      rfl
  case isFalse hnone =>
    cases hfrontiers
    push Not at hnone
    obtain ⟨hblob, hfloor⟩ := hnone
    rw [hblob, not_isSome_iff_eq_none.1 hfloor]
    rfl

theorem decodePayload_encodePayload {payload : Bytes} (hgc : e.gcStats ≠ some [])
    (h : e.encodePayload = .ok payload) :
    decodePayload payload = .ok e := by
  obtain ⟨levels, hlevels, h⟩ := bind_eq_ok.1 h
  obtain ⟨added, hadded, h⟩ := bind_eq_ok.1 h
  obtain ⟨removed, hremoved, h⟩ := bind_eq_ok.1 h
  obtain ⟨gcStats, hgcStats, h⟩ := bind_eq_ok.1 h
  obtain ⟨restrictions, hrestrictions, h⟩ := bind_eq_ok.1 h
  obtain ⟨appended, happended, h⟩ := bind_eq_ok.1 h
  cases h
  have hread : readEdit.run (write e.newVersionId ++
      (levels ++ (added ++ (removed ++ (gcStats ++ (restrictions ++ appended)))))) =
        some (e, []) := by
    rw [readEdit, (reads_write e.newVersionId).run_bind,
      (encodeChangedLevel_roundTrip.list _ _ hlevels).run_bind,
      (encodeAddedBlobFile_roundTrip.list _ _ hadded).run_bind,
      (encodeId_roundTrip.list _ _ hremoved).run_bind,
      (encodeBytes_roundTrip _ _ hgcStats).run_bind,
      (encodeRestriction_roundTrip.list _ _ hrestrictions).run_bind]
    apply (encodeAppended_read happended (VersionEdit.mk e.newVersionId e.changedLevels
      e.addedBlobFiles e.removedBlobFileIds (if (e.gcStats.getD []).isEmpty then none else
      some (e.gcStats.getD [])) e.restrictions)).trans
    congr 2
    cases e with
    | mk _ _ _ _ gcStats _ _ _ =>
      congr 1
      cases gcStats with
      | none => rfl
      | some bytes =>
        have hne : bytes ≠ [] := fun hnil => hgc (congrArg some hnil)
        simp [hne]
  rw [decodePayload, hread]

end RoundTrip

section Writable

theorem encodeBytes_eq_ok {bytes : Bytes} :
    (∃ out, encodeBytes bytes = .ok out) ↔ bytes.length < 256 ^ 4 := by
  constructor
  · rintro ⟨out, h⟩
    obtain ⟨len, hlen, -⟩ := bind_eq_ok.1 h
    exact u32Len_eq_ok hlen ▸ len.isLt
  · intro h
    exact ⟨_, bind_eq_ok.2 ⟨_, u32Len_of_lt h, rfl⟩⟩

theorem encodeRestriction_eq_ok {r : U64 × Bytes} :
    (∃ out, encodeRestriction r = .ok out) ↔ r.2.length < 256 ^ 4 := by
  rw [← encodeBytes_eq_ok]
  constructor
  · rintro ⟨out, h⟩
    obtain ⟨key, hkey, -⟩ := bind_eq_ok.1 h
    exact ⟨key, hkey⟩
  · rintro ⟨key, hkey⟩
    exact ⟨_, bind_eq_ok.2 ⟨key, hkey, rfl⟩⟩

end Writable

section ReplayRecords

variable {digest : Digest} {mode : ManifestRecoveryMode} {e : VersionEdit} {record : Bytes}

theorem readFramedRecord_record (hgc : e.gcStats ≠ some []) (h : e.record digest = .ok record)
    (rest : Bytes) : ∃ payload, decodePayload payload = .ok e ∧
      readFramedRecord digest (2 ^ 64 - 1) none (record ++ rest) = .ok payload rest := by
  obtain ⟨payload, hpayload, h⟩ := bind_eq_ok.1 h
  have hlen := (writeFramedRecord_eq_ok h).1
  refine ⟨payload, decodePayload_encodePayload hgc hpayload, readFramedRecord_whole ?_ ?_ h rest⟩
  · simp only [maxFramePayload, frameHeaderLen] at hlen ⊢
    omega
  · intro _ h
    cases h

theorem record_ne_nil (h : e.record digest = .ok record) : record ≠ [] := by
  obtain ⟨payload, -, h⟩ := bind_eq_ok.1 h
  intro hnil
  have hlen := writeFramedRecord_length h
  simp only [hnil, List.length_nil, frameHeaderLen] at hlen
  omega

/-- A tail at which the replay ends without an edit. -/
def EndsReplay (digest : Digest) (mode : ManifestRecoveryMode) (tail : Bytes) : Prop :=
  ∀ fuel, replayFrom digest mode fuel tail = .ok []

theorem endsReplay_nil : EndsReplay digest mode [] := by
  intro fuel
  cases fuel <;> rfl

theorem endsReplay_cut (h : e.record digest = .ok record) {n : ℕ} (hn : n < record.length)
    (hmode : mode ≠ .absoluteConsistency) : EndsReplay digest mode (record.take n) := by
  obtain ⟨payload, -, h⟩ := bind_eq_ok.1 h
  have hlen := (writeFramedRecord_eq_ok h).1
  intro fuel
  cases fuel with
  | zero => rfl
  | succ fuel =>
    have hcut : readFramedRecord digest (2 ^ 64 - 1) none (record.take n) = .tailTruncation := by
      refine readFramedRecord_cut ?_ h hn
      simp only [maxFramePayload, frameHeaderLen] at hlen ⊢
      omega
    rw [replayFrom, hcut]
    simp only [if_neg hmode, ite_self]

variable {es : List VersionEdit} {records tail : Bytes} {fuel : ℕ}

theorem replayFrom_records (hrecords : writeAll (VersionEdit.record digest) es = .ok records)
    (hgc : ∀ e ∈ es, e.gcStats ≠ some []) (htail : EndsReplay digest mode tail)
    (hfuel : (records ++ tail).length < fuel) :
    replayFrom digest mode fuel (records ++ tail) = .ok es := by
  induction es generalizing records fuel with
  | nil =>
    cases hrecords
    exact htail fuel
  | cons e es ih =>
    obtain ⟨record, hrecord, hrecords⟩ := bind_eq_ok.1 hrecords
    obtain ⟨rest, hrest, hrecords⟩ := bind_eq_ok.1 hrecords
    cases hrecords
    obtain ⟨hgce, hgces⟩ := List.forall_mem_cons.1 hgc
    obtain ⟨payload, hdecode, hread⟩ := readFramedRecord_record hgce hrecord (rest ++ tail)
    have hpos := List.length_pos_iff.2 (record_ne_nil hrecord)
    rw [List.append_assoc] at hfuel ⊢
    cases fuel with
    | zero => exact absurd hfuel (not_lt_zero _)
    | succ fuel =>
      have hne : (record ++ (rest ++ tail)).isEmpty = false := by
        rw [List.isEmpty_eq_false_iff]
        exact List.append_ne_nil_of_left_ne_nil (record_ne_nil hrecord) _
      have hfuel' : (rest ++ tail).length < fuel := by
        rw [List.length_append] at hfuel
        omega
      rw [replayFrom, hne, hread]
      simp only [Bool.false_eq_true, if_false, hdecode, ih hrest hgces hfuel']
      rfl

variable {log more : Bytes} {es' : List VersionEdit}

theorem replayFrom_append (h : replayFrom digest .absoluteConsistency fuel log = .ok es)
    (hfuel : log.length < fuel)
    (hmore : ∀ fuel, more.length < fuel → replayFrom digest mode fuel more = .ok es') {fuel' : ℕ}
    (hfuel' : (log ++ more).length < fuel') :
    replayFrom digest mode fuel' (log ++ more) = .ok (es ++ es') := by
  induction fuel generalizing log es fuel' with
  | zero => exact absurd hfuel (not_lt_zero _)
  | succ fuel ih =>
    rw [replayFrom] at h
    split at h
    case isTrue hempty =>
      cases h
      rw [List.isEmpty_iff.1 hempty] at hfuel' ⊢
      exact hmore fuel' hfuel'
    case isFalse hempty =>
      split at h
      case h_1 payload rest hread =>
        obtain ⟨e, he, h⟩ := bind_eq_ok.1 h
        obtain ⟨es, hes, h⟩ := bind_eq_ok.1 h
        cases h
        have hshort := readFramedRecord_rest_length hread
        rw [List.length_append] at hfuel'
        cases fuel' with
        | zero => exact absurd hfuel' (not_lt_zero _)
        | succ fuel' =>
          have hne : (log ++ more).isEmpty = false := by
            rw [List.isEmpty_eq_false_iff]
            exact List.append_ne_nil_of_left_ne_nil (fun hnil => hempty (List.isEmpty_iff.2 hnil)) _
          have hrest : replayFrom digest mode fuel' (rest ++ more) = .ok (es ++ es') :=
            ih hes (by omega) (by rw [List.length_append]; omega)
          rw [replayFrom, hne, readFramedRecord_append hread]
          simp only [Bool.false_eq_true, if_false, he, hrest]
          rfl
      case h_2 => cases h
      case h_3 =>
        rw [if_neg (by decide)] at h
        cases h

theorem replayEdits_append (h : replayEdits digest .absoluteConsistency log = .ok es)
    (hmore : ∀ fuel, more.length < fuel → replayFrom digest mode fuel more = .ok es') :
    replayEdits digest mode (log ++ more) = .ok (es ++ es') :=
  replayFrom_append h (lt_succ_self _) hmore (lt_succ_self _)

theorem replayEdits_records (hrecords : writeAll (VersionEdit.record digest) es = .ok records)
    (hgc : ∀ e ∈ es, e.gcStats ≠ some []) (htail : EndsReplay digest mode tail) :
    replayEdits digest mode (records ++ tail) = .ok es :=
  replayFrom_records hrecords hgc htail (lt_succ_self _)

end ReplayRecords

end LsmTree
