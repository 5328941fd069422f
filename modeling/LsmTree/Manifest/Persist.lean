import LsmTree.Manifest.History

/-! Persisting one change: the edit is appended to the log, or a new snapshot replaces the old one
and its log. -/
namespace LsmTree

open Codec

namespace VersionEdit

def frontiersSize (e : VersionEdit) : ℕ :=
  if e.blobRestrictions ≠ [] ∨ e.retentionFloor.isSome then 4 + 16 * e.blobRestrictions.length
  else 0

/-- The bytes of the payload. A changed level is written with all of its tables. -/
def payloadSize (e : VersionEdit) : ℕ :=
  8 + (4 + (e.changedLevels.map fun cl =>
      1 + (4 + (cl.runs.map fun run => 4 + 33 * run.length).sum)).sum) +
    (4 + 25 * e.addedBlobFiles.length) + (4 + 8 * e.removedBlobFileIds.length) +
    (4 + (e.gcStats.getD []).length) +
    (4 + (e.restrictions.map fun r => 8 + (4 + r.2.length)).sum) +
    e.frontiersSize + (if e.retentionFloor.isSome then 8 else 0)

end VersionEdit

section Sizes

theorem encodeBytes_sized : Sized encodeBytes fun bytes => 4 + bytes.length := by
  constructor
  · intro bytes
    omega
  · intro bytes out h
    obtain ⟨len, -, h⟩ := bind_eq_ok.1 h
    cases h
    rw [List.length_append, write_length]
  · intro bytes h
    exact encodeBytes_eq_ok.2 (by omega)

theorem encodeTableDesc_sized : Sized encodeTableDesc fun _ => 33 := by
  constructor
  · exact fun _ => by decide
  · rintro t _ ⟨⟩
    simp
  · exact fun _ _ => ⟨_, rfl⟩

theorem encodeChangedLevel_sized : Sized encodeChangedLevel fun cl =>
    1 + (4 + (cl.runs.map fun run => 4 + 33 * run.length).sum) := by
  have hruns : Sized (writeList ManifestError.unrecoverable
      (writeList .unrecoverable encodeTableDesc)) fun runs =>
        4 + (runs.map fun run => 4 + 33 * run.length).sum := encodeTableDesc_sized.list_const.list
  constructor
  · intro cl
    omega
  · intro cl bytes h
    obtain ⟨runs, hwrite, h⟩ := bind_eq_ok.1 h
    cases h
    rw [List.length_append, write_length, hruns.length _ _ hwrite]
  · intro cl h
    obtain ⟨runs, hwrite⟩ := hruns.writes cl.runs (by omega)
    exact ⟨_, bind_eq_ok.2 ⟨runs, hwrite, rfl⟩⟩

theorem encodeAddedBlobFile_sized : Sized encodeAddedBlobFile fun _ => 25 := by
  constructor
  · exact fun _ => by decide
  · rintro b _ ⟨⟩
    simp
  · exact fun _ _ => ⟨_, rfl⟩

theorem encodeId_sized :
    Sized (fun id : U64 => (pure (write id) : Except ManifestError Bytes)) fun _ => 8 := by
  constructor
  · exact fun _ => by decide
  · rintro id _ ⟨⟩
    simp
  · exact fun _ _ => ⟨_, rfl⟩

theorem encodeRestriction_sized : Sized encodeRestriction fun r => 8 + (4 + r.2.length) := by
  constructor
  · intro r
    omega
  · intro r bytes h
    obtain ⟨key, hkey, h⟩ := bind_eq_ok.1 h
    cases h
    rw [List.length_append, write_length, encodeBytes_sized.length _ _ hkey]
  · intro r h
    exact encodeRestriction_eq_ok.2 (by omega)

theorem encodeFrontier_sized : Sized encodeFrontier fun _ => 16 := by
  constructor
  · exact fun _ => by decide
  · rintro r _ ⟨⟩
    simp
  · exact fun _ _ => ⟨_, rfl⟩

end Sizes

namespace VersionEdit

variable {e : VersionEdit}

theorem encodeFrontiers_length {bytes : Bytes} (h : e.encodeFrontiers = .ok bytes) :
    bytes.length = e.frontiersSize := by
  rw [encodeFrontiers] at h
  rw [frontiersSize]
  split_ifs at h ⊢ with hsome
  · exact encodeFrontier_sized.list_const.length _ _ h
  · cases h
    rfl

theorem exists_encodeFrontiers (h : e.frontiersSize < 256 ^ 4) :
    ∃ bytes, e.encodeFrontiers = .ok bytes := by
  rw [frontiersSize] at h
  rw [encodeFrontiers]
  split_ifs at h ⊢ with hsome
  · exact encodeFrontier_sized.list_const.writes _ h
  · exact ⟨[], rfl⟩

theorem encodePayload_length {payload : Bytes} (h : e.encodePayload = .ok payload) :
    payload.length = e.payloadSize := by
  obtain ⟨levels, hlevels, h⟩ := bind_eq_ok.1 h
  obtain ⟨added, hadded, h⟩ := bind_eq_ok.1 h
  obtain ⟨removed, hremoved, h⟩ := bind_eq_ok.1 h
  obtain ⟨gcStats, hgcStats, h⟩ := bind_eq_ok.1 h
  obtain ⟨restrictions, hrestrictions, h⟩ := bind_eq_ok.1 h
  obtain ⟨appended, happended, h⟩ := bind_eq_ok.1 h
  cases h
  obtain ⟨frontiers, hfrontiers, happended⟩ := bind_eq_ok.1 happended
  cases happended
  have hfloor : ((e.retentionFloor.map write).getD []).length =
      if e.retentionFloor.isSome then 8 else 0 := by
    cases e.retentionFloor with
    | none => rfl
    | some floor => exact write_length floor
  simp only [List.length_append, write_length, hfloor, encodeFrontiers_length hfrontiers,
    encodeChangedLevel_sized.list.length _ _ hlevels,
    encodeAddedBlobFile_sized.list_const.length _ _ hadded,
    encodeId_sized.list_const.length _ _ hremoved, encodeBytes_sized.length _ _ hgcStats,
    encodeRestriction_sized.list.length _ _ hrestrictions, payloadSize]
  omega

theorem exists_encodePayload (h : e.payloadSize < 256 ^ 4) :
    ∃ payload, e.encodePayload = .ok payload := by
  rw [payloadSize] at h
  obtain ⟨levels, hlevels⟩ :
      ∃ bytes, writeList .unrecoverable encodeChangedLevel e.changedLevels = .ok bytes :=
    encodeChangedLevel_sized.list.writes _ (by omega)
  obtain ⟨added, hadded⟩ :
      ∃ bytes, writeList .unrecoverable encodeAddedBlobFile e.addedBlobFiles = .ok bytes :=
    encodeAddedBlobFile_sized.list_const.writes _ (by omega)
  obtain ⟨removed, hremoved⟩ : ∃ bytes, writeList ManifestError.unrecoverable
      (fun id : U64 => pure (write id)) e.removedBlobFileIds = .ok bytes :=
    encodeId_sized.list_const.writes _ (by omega)
  obtain ⟨gcStats, hgcStats⟩ := encodeBytes_sized.writes (e.gcStats.getD []) (by omega)
  obtain ⟨restrictions, hrestrictions⟩ :
      ∃ bytes, writeList .unrecoverable encodeRestriction e.restrictions = .ok bytes :=
    encodeRestriction_sized.list.writes _ (by omega)
  obtain ⟨frontiers, hfrontiers⟩ := exists_encodeFrontiers (e := e) (by omega)
  exact ⟨_, bind_eq_ok.2 ⟨levels, hlevels, bind_eq_ok.2 ⟨added, hadded,
    bind_eq_ok.2 ⟨removed, hremoved, bind_eq_ok.2 ⟨gcStats, hgcStats,
    bind_eq_ok.2 ⟨restrictions, hrestrictions, bind_eq_ok.2 ⟨_,
    bind_eq_ok.2 ⟨frontiers, hfrontiers, rfl⟩, rfl⟩⟩⟩⟩⟩⟩⟩

theorem record_of_large {digest : Digest} (h : maxFramePayload < e.payloadSize)
    (hwritable : e.payloadSize < 256 ^ 4) : e.record digest = .error .unrecoverable := by
  obtain ⟨payload, hpayload⟩ := exists_encodePayload hwritable
  rw [record, hpayload]
  apply if_pos
  rwa [encodePayload_length hpayload]

theorem record_eq_ok {digest : Digest} :
    (∃ record, e.record digest = .ok record) ↔ e.payloadSize ≤ maxFramePayload := by
  constructor
  · rintro ⟨record, h⟩
    obtain ⟨payload, hpayload, h⟩ := bind_eq_ok.1 h
    rw [← encodePayload_length hpayload]
    exact (writeFramedRecord_eq_ok h).1
  · intro h
    obtain ⟨payload, hpayload⟩ := exists_encodePayload (lt_of_le_of_lt h (by decide))
    refine ⟨_, bind_eq_ok.2 ⟨payload, hpayload, if_neg ?_⟩⟩
    rw [encodePayload_length hpayload]
    exact not_lt.2 h

end VersionEdit

/-- What `SuperVersions` knows of the manifest. -/
structure OpenManifest where
  files : ManifestFiles
  latest : TreeVersion
  logBytes : Option ℕ

namespace OpenManifest

variable (cfg : ManifestConfig) (treeType : TreeType)

def logSize (m : OpenManifest) : ℕ := m.logBytes.getD m.files.editLog.length

/-- `persist_change` where no operation on a file fails. -/
def persistChange (m : OpenManifest) (next : TreeVersion) : Except ManifestError OpenManifest :=
  if m.logSize < cfg.logRotateBytes then do
    let edit ← next.diff m.latest
    let record ← edit.record cfg.digest
    return ⟨{ m.files with editLog := m.files.editLog ++ record }, next,
      some (m.logSize + record.length)⟩
  else do
    let archive ← next.encodeInto cfg.digest treeType
    return ⟨⟨next.id, archive, []⟩, next, some 0⟩

structure Sound (m : OpenManifest) : Prop where
  wf : m.latest.WF cfg.levelCount
  logBytes : ∀ n ∈ m.logBytes, n = m.files.editLog.length
  recovers : ∀ mode, ∃ r, m.files.recover cfg.digest mode = .ok r ∧ r.Holds m.latest

end OpenManifest

/-- The edit fits one frame, and what it counts fits its fields. -/
structure TreeVersion.EditFits (next prior : TreeVersion) : Prop where
  frame : ∃ e, next.diff prior = .ok e ∧ e.payloadSize ≤ maxFramePayload
  blobCounts : next.gcStats.CountsFit

theorem Recovery.applyEdit_countsFit {r r' : Recovery} {e : VersionEdit}
    (hr : r.gcStats.CountsFit) (h : r.applyEdit e = .ok r') : r'.gcStats.CountsFit := by
  obtain ⟨gcStats, hgc, h⟩ := bind_eq_ok.1 h
  cases h
  cases hstats : e.gcStats with
  | none =>
    rw [hstats] at hgc
    cases hgc
    exact hr
  | some bytes =>
    rw [hstats] at hgc
    exact (decode_bounds hgc).2

namespace OpenManifest

variable {cfg : ManifestConfig} {treeType : TreeType} {m m' : OpenManifest} {next : TreeVersion}

theorem Sound.logSize (h : m.Sound cfg) : m.logSize = m.files.editLog.length := by
  rw [OpenManifest.logSize]
  cases hbytes : m.logBytes with
  | none => rfl
  | some n => exact h.logBytes n hbytes

theorem recover_append {f : ManifestFiles} {mode : ManifestRecoveryMode} {r : Recovery}
    (hstrict : ∃ r, f.recover cfg.digest .absoluteConsistency = .ok r)
    (h : f.recover cfg.digest mode = .ok r) {e : VersionEdit} (hgc : e.gcStats ≠ some [])
    {record : Bytes} (hrecord : e.record cfg.digest = .ok record) :
    ManifestFiles.recover cfg.digest mode { f with editLog := f.editLog ++ record } =
      r.applyEdit e := by
  obtain ⟨_, hstrict⟩ := hstrict
  obtain ⟨_, -, hstrict⟩ := bind_eq_ok.1 hstrict
  obtain ⟨es, hes, -⟩ := bind_eq_ok.1 hstrict
  obtain ⟨⟨tt, base⟩, hbase, h⟩ := bind_eq_ok.1 h
  obtain ⟨es', hes', h⟩ := bind_eq_ok.1 h
  have hnone : ∀ fuel, ([] : Bytes).length < fuel →
      replayFrom cfg.digest mode fuel [] = .ok [] := fun fuel _ => endsReplay_nil fuel
  have hsame := replayEdits_append hes hnone
  rw [List.append_nil, List.append_nil, hes'] at hsame
  cases hsame
  have hone : ∀ fuel, record.length < fuel →
      replayFrom cfg.digest mode fuel record = .ok [e] := by
    intro fuel hfuel
    have hall : writeAll (VersionEdit.record cfg.digest) [e] = .ok (record ++ []) :=
      bind_eq_ok.2 ⟨record, hrecord, rfl⟩
    rw [List.append_nil] at hall
    have hreplay : replayFrom cfg.digest mode fuel (record ++ []) = .ok [e] :=
      replayFrom_records hall (by simpa using hgc) endsReplay_nil (by rwa [List.append_nil])
    rwa [List.append_nil] at hreplay
  rw [ManifestFiles.recover, hbase]
  simp only [bind, Except.bind, replayEdits_append hes hone]
  have happly : base.applyEdits (es ++ [e]) = base.applyEdits es >>= (·.applyEdit e) := by
    simp only [Recovery.applyEdits, List.foldlM_append, List.foldlM_cons, List.foldlM_nil,
      bind_pure]
  rw [happly, h]
  rfl

theorem Sound.append (h : m.Sound cfg) (hnext : next.WF cfg.levelCount) {e : VersionEdit}
    (hdiff : next.diff m.latest = .ok e) {record : Bytes} (hrecord : e.record cfg.digest = .ok record)
    (mode : ManifestRecoveryMode) : ∃ r, ManifestFiles.recover cfg.digest mode
      { m.files with editLog := m.files.editLog ++ record } = .ok r ∧ r.Holds next := by
  obtain ⟨payload, hpayload, -⟩ := bind_eq_ok.1 hrecord
  obtain ⟨r, hr, hholds⟩ := h.recovers mode
  obtain ⟨r', happly, hholds'⟩ := Recovery.applyEdit_diff hholds h.wf hnext hdiff hpayload
  have hstrict := (h.recovers .absoluteConsistency).imp fun _ hr => hr.1
  have hgc := Recovery.diff_gcStats_ne_nil hdiff
  exact ⟨r', (recover_append hstrict hr hgc hrecord).trans happly, hholds'⟩

theorem recover_rotated {n : ℕ} {digest : Digest} (hnext : next.WF n) (hfit : next.FieldsFit)
    (hne : ∀ level ∈ next.levels, ∀ run ∈ level, run ≠ []) {archive : Archive}
    (hwrite : next.encodeInto digest treeType = .ok archive) (mode : ManifestRecoveryMode) :
    ManifestFiles.recover digest mode ⟨next.id, archive, []⟩ = .ok next.snapshot := by
  have hwf : next.WF next.levels.length := ⟨rfl, hnext.distinctIds, hnext.countsFit⟩
  have hread : archive.recover digest mode next.id = .ok (treeType, next.snapshot) :=
    hfit.recover_encodeInto hwf hne hwrite
  rw [ManifestFiles.recover, hread]
  rfl

theorem Sound.persistChange (h : m.Sound cfg) (hnext : next.WF cfg.levelCount)
    (hne : ∀ level ∈ next.levels, ∀ run ∈ level, run ≠ [])
    (hfit : cfg.logRotateBytes ≤ m.files.editLog.length → next.FieldsFit)
    (hok : m.persistChange cfg treeType next = .ok m') : m'.Sound cfg ∧ m'.latest = next := by
  rw [OpenManifest.persistChange, h.logSize] at hok
  split_ifs at hok with hlog
  · obtain ⟨e, hdiff, hok⟩ := bind_eq_ok.1 hok
    obtain ⟨record, hrecord, hok⟩ := bind_eq_ok.1 hok
    cases hok
    refine ⟨⟨hnext, ?_, h.append hnext hdiff hrecord⟩, rfl⟩
    intro n hn
    cases hn
    rw [List.length_append]
  · obtain ⟨archive, hwrite, hok⟩ := bind_eq_ok.1 hok
    cases hok
    refine ⟨⟨hnext, ?_, fun mode => ⟨next.snapshot, ?_, TreeVersion.snapshot_holds hnext⟩⟩, rfl⟩
    · intro n hn
      cases hn
      rfl
    · exact recover_rotated hnext (hfit (not_lt.1 hlog)) hne hwrite mode

/-- With no operation on a file failing, a change is persisted and recovered exactly if and only
if its edit fits one frame, or, where the log is due for rotation, the counts of the new version
fit the fields of the snapshot. -/
theorem persistChange_recovers_iff (mode : ManifestRecoveryMode) (h : m.Sound cfg)
    (hlevels : next.levels.length = cfg.levelCount) (hids : (next.tables.map (·.desc.id)).Nodup)
    (hne : ∀ level ∈ next.levels, ∀ run ∈ level, run ≠ []) :
    (∃ m' r, m.persistChange cfg treeType next = .ok m' ∧
      m'.files.recover cfg.digest mode = .ok r ∧ r.toVersion = next) ↔
        if m.files.editLog.length < cfg.logRotateBytes then next.EditFits m.latest
        else next.FieldsFit := by
  rw [persistChange, h.logSize]
  split_ifs with hlog
  · constructor
    · rintro ⟨m', r, hok, hrecover, rfl⟩
      obtain ⟨e, hdiff, hok⟩ := bind_eq_ok.1 hok
      obtain ⟨record, hrecord, hok⟩ := bind_eq_ok.1 hok
      cases hok
      obtain ⟨r₀, hr₀, hholds⟩ := h.recovers mode
      have hstrict := (h.recovers .absoluteConsistency).imp fun _ hr => hr.1
      have happly := (recover_append hstrict hr₀ (Recovery.diff_gcStats_ne_nil hdiff) hrecord).symm.trans
        hrecover
      refine ⟨⟨e, hdiff, VersionEdit.record_eq_ok.1 ⟨record, hrecord⟩⟩, ?_⟩
      apply Recovery.applyEdit_countsFit _ happly
      rw [show r₀.gcStats = m.latest.gcStats from congrArg (·.gcStats) hholds.toVersion]
      exact h.wf.countsFit
    · rintro ⟨⟨e, hdiff, hsize⟩, hcounts⟩
      obtain ⟨record, hrecord⟩ := VersionEdit.record_eq_ok.2 hsize
      obtain ⟨r, hrecover, hholds⟩ := h.append ⟨hlevels, hids, hcounts⟩ hdiff hrecord mode
      exact ⟨_, r, bind_eq_ok.2 ⟨e, hdiff, bind_eq_ok.2 ⟨record, hrecord, rfl⟩⟩, hrecover,
        hholds.toVersion⟩
  · constructor
    · rintro ⟨m', r, hok, hrecover, rfl⟩
      obtain ⟨archive, hwrite, hok⟩ := bind_eq_ok.1 hok
      cases hok
      obtain ⟨⟨_, r₀⟩, hread, hrecover⟩ := bind_eq_ok.1 hrecover
      cases hrecover
      exact TreeVersion.fieldsFit_of_roundTrip hwrite hread
    · intro hfit
      obtain ⟨archive, hwrite⟩ := TreeVersion.exists_encodeInto cfg.digest treeType hfit.blobFiles
        hfit.restrictions hfit.bounds
      have hwf : next.WF cfg.levelCount := ⟨hlevels, hids, hfit.blobCounts⟩
      exact ⟨_, next.snapshot, bind_eq_ok.2 ⟨archive, hwrite, rfl⟩,
        recover_rotated hwf hfit hne hwrite mode, (TreeVersion.snapshot_holds hwf).toVersion⟩

section WideLevel

def lastLevel (id : U64) (ids : List U64) : TreeVersion where
  id := id
  levels := [[], if ids.isEmpty then [] else
    [ids.map fun id => ⟨⟨id, 7, 0⟩, none⟩]]
  blobFiles := IdMap.empty
  gcStats := IdMap.empty
  retentionFloor := 0

abbrev twoLevels (digest : Digest) : ManifestConfig := ⟨digest, 2 ^ 20, 2⟩

theorem exists_sound (digest : Digest) (treeType : TreeType) : ∃ archive,
    Sound (twoLevels digest) ⟨⟨⟨0, by decide⟩, archive, []⟩, lastLevel ⟨0, by decide⟩ [], none⟩ := by
  have hfit : (lastLevel ⟨0, by decide⟩ []).FieldsFit :=
    ⟨by decide, by decide, by decide, by decide, by decide, by decide, by decide, by decide⟩
  have hwf : (lastLevel ⟨0, by decide⟩ []).WF 2 := ⟨rfl, by decide, by decide⟩
  obtain ⟨archive, hwrite⟩ := TreeVersion.exists_encodeInto digest treeType hfit.blobFiles
    hfit.restrictions hfit.bounds
  have hrecover := recover_rotated hwf hfit (by decide) hwrite
  exact ⟨archive, hwf, fun _ hn => (nomatch hn),
    fun mode => ⟨_, hrecover mode, TreeVersion.snapshot_holds hwf⟩⟩

theorem diff_lastLevel (id : U64) (ids : List U64) (hids : ids ≠ []) : ∃ e,
    (lastLevel id ids).diff (lastLevel ⟨0, by decide⟩ []) = .ok e ∧
      e.payloadSize = 37 + 33 * ids.length := by
  have hchanged : (lastLevel id ids).changedLevels (lastLevel ⟨0, by decide⟩ []) = [1] := by
    simp [TreeVersion.changedLevels, TreeVersion.levelRuns, TreeVersion.layout, lastLevel, hids,
      List.range_succ]
  have hbyte : ¬ (((lastLevel id ids).changedLevels (lastLevel ⟨0, by decide⟩ [])).any
      fun i => decide (256 ≤ i)) = true := by
    rw [hchanged]
    decide
  cases hdiff : (lastLevel id ids).diff (lastLevel ⟨0, by decide⟩ []) with
  | error _ =>
    rw [TreeVersion.diff, if_neg hbyte] at hdiff
    cases hdiff
  | ok e =>
    rw [TreeVersion.diff, if_neg hbyte] at hdiff
    cases hdiff
    refine ⟨_, rfl, ?_⟩
    simp only [VersionEdit.payloadSize, VersionEdit.frontiersSize, hchanged]
    simp [TreeVersion.levelRuns, TreeVersion.layout, TreeVersion.restrictions, TreeVersion.tables,
      TreeVersion.blobRestrictions, lastLevel, hids, IdMap.empty]
    omega

def manyTables : TreeVersion :=
  lastLevel 1 ((List.finRange 1986).map (Fin.castLE (by decide)))

/-- The edit of 1986 tables in one level is above the cap of a frame. The log is empty, so it is
not rotated, and the change cannot be persisted. -/
theorem manyTables_refused : manyTables.tables.length = 1986 ∧
    ∀ (digest : Digest) (treeType : TreeType), ∃ m : OpenManifest,
      m.Sound (twoLevels digest) ∧ m.files.editLog = [] ∧
        m.persistChange (twoLevels digest) treeType manyTables = .error .unrecoverable := by
  refine ⟨by simp [manyTables, lastLevel, TreeVersion.tables], fun digest treeType => ?_⟩
  obtain ⟨archive, hsound⟩ := exists_sound digest treeType
  refine ⟨_, hsound, rfl, ?_⟩
  obtain ⟨e, hdiff, hsize⟩ := diff_lastLevel 1
    ((List.finRange 1986).map (Fin.castLE (by decide))) (by simp)
  rw [List.length_map, List.length_finRange] at hsize
  have hrecord : e.record digest = .error .unrecoverable := by
    apply VersionEdit.record_of_large <;> rw [hsize] <;> decide
  have hlog : ([] : Bytes).length < (twoLevels digest).logRotateBytes := Nat.two_pow_pos 20
  rw [persistChange, hsound.logSize, if_pos hlog, manyTables, hdiff]
  change e.record digest >>= _ = _
  rw [hrecord]
  rfl

theorem oneTable_persisted : ∃ (m m' : OpenManifest) (r : Recovery),
    m.persistChange (twoLevels fun _ => ⟨0, by decide⟩) .standard
      (lastLevel ⟨1, by decide⟩ [⟨5, by decide⟩]) = .ok m' ∧
    m'.files.recover (fun _ => ⟨0, by decide⟩) .absoluteConsistency = .ok r ∧
    r.toVersion = lastLevel ⟨1, by decide⟩ [⟨5, by decide⟩] := by
  obtain ⟨archive, hsound⟩ := exists_sound (fun _ => ⟨0, by decide⟩) .standard
  have hfits : (lastLevel ⟨1, by decide⟩ [⟨5, by decide⟩]).EditFits
      (lastLevel ⟨0, by decide⟩ []) := by
    obtain ⟨e, hdiff, hsize⟩ := diff_lastLevel ⟨1, by decide⟩ [⟨5, by decide⟩] (by decide)
    exact ⟨⟨e, hdiff, by rw [hsize]; decide⟩, by decide⟩
  have hlog : ([] : Bytes).length < (twoLevels fun _ => ⟨0, by decide⟩).logRotateBytes :=
    Nat.two_pow_pos 20
  refine ⟨_, (persistChange_recovers_iff .absoluteConsistency hsound rfl (by decide)
    (by decide)).2 ?_⟩
  rw [if_pos hlog]
  exact hfits

end WideLevel

end OpenManifest

end LsmTree
