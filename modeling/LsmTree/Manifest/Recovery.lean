import LsmTree.Manifest.History

/-! Recovery after installs that failed or were cut. -/
namespace LsmTree

open Codec

section Chain

variable {digest : Digest} {levelCount : ℕ} {base : Recovery}

/-- The records of the log, last first, each the edit between two versions. -/
inductive EditChain (digest : Digest) (levelCount : ℕ) (base : Recovery) :
    List Bytes → List VersionEdit → Recovery → TreeVersion → Prop where
  | snapshot {v : TreeVersion} : base.Holds v → v.WF levelCount →
      EditChain digest levelCount base [] [] base v
  | record {log : List Bytes} {es : List VersionEdit} {r r' : Recovery} {prior v : TreeVersion}
      {e : VersionEdit} {record : Bytes} : EditChain digest levelCount base log es r prior →
      v.WF levelCount → v.diff prior = .ok e → e.record digest = .ok record →
      r.applyEdit e = .ok r' → r'.Holds v →
      EditChain digest levelCount base (record :: log) (e :: es) r' v

variable {log : List Bytes} {es : List VersionEdit} {r : Recovery} {v : TreeVersion}

variable (h : EditChain digest levelCount base log es r v)
include h

theorem EditChain.wf : v.WF levelCount := by
  cases h with
  | snapshot _ hwf => exact hwf
  | record _ hwf => exact hwf

theorem EditChain.holds : r.Holds v := by
  cases h with
  | snapshot hholds => exact hholds
  | record _ _ _ _ _ hholds => exact hholds

theorem EditChain.applyEdits : base.applyEdits es.reverse = .ok r := by
  induction h with
  | snapshot => rfl
  | record _ _ _ _ happly _ ih =>
    rw [Recovery.applyEdits, List.reverse_cons, List.foldlM_append]
    apply bind_eq_ok.2
    refine ⟨_, ih, ?_⟩
    rw [List.foldlM_cons, happly]
    rfl

theorem EditChain.writeAll :
    Codec.writeAll (VersionEdit.record digest) es.reverse = .ok log.reverse.flatten := by
  induction h with
  | snapshot => rfl
  | @record log es r r' prior v e record _ _ _ hrecord _ _ ih =>
    have hlast : Codec.writeAll (VersionEdit.record digest) [e] = .ok (record ++ []) := by
      rw [Codec.writeAll, hrecord]
      rfl
    rw [List.reverse_cons, List.reverse_cons, List.flatten_append]
    exact writeAll_append ih hlast

theorem EditChain.gcStats_ne_nil : ∀ e ∈ es, e.gcStats ≠ some [] := by
  induction h with
  | snapshot => exact fun _ hmem => nomatch hmem
  | record _ _ hdiff _ _ _ ih =>
    exact List.forall_mem_cons.2 ⟨Recovery.diff_gcStats_ne_nil hdiff, ih⟩

theorem EditChain.extend {next : TreeVersion} (hnext : next.WF levelCount) {e : VersionEdit}
    (hdiff : next.diff v = .ok e) {record : Bytes} (hrecord : e.record digest = .ok record) :
    ∃ r', EditChain digest levelCount base (record :: log) (e :: es) r' next := by
  obtain ⟨payload, hpayload, -⟩ := bind_eq_ok.1 hrecord
  obtain ⟨r', happly, hholds⟩ := Recovery.applyEdit_diff h.holds h.wf hnext hdiff hpayload
  exact ⟨r', .record h hnext hdiff hrecord happly hholds⟩

end Chain

namespace ManifestState

variable {cfg : ManifestConfig} {m : ManifestState}

def TornRecord (digest : Digest) (piece : Bytes) : Prop :=
  ∃ (e : VersionEdit) (record : Bytes) (n : ℕ),
    e.record digest = .ok record ∧ n < record.length ∧ piece = record.take n

/-- The snapshot is read in every mode, and the records lead from it to `v`. -/
def Recovers (cfg : ManifestConfig) (m : ManifestState) (log : List Bytes) (v : TreeVersion) :
    Prop :=
  ∃ base, (∀ mode, ∃ treeType, m.archive.recover cfg.digest mode m.snapshotId = .ok (treeType, base)) ∧
    ∃ es r, EditChain cfg.digest cfg.levelCount base log es r v

theorem Recovers.extend {log : List Bytes} {v next : TreeVersion} (h : Recovers cfg m log v)
    (hnext : next.WF cfg.levelCount) {e : VersionEdit} (hdiff : next.diff v = .ok e)
    {record : Bytes} (hrecord : e.record cfg.digest = .ok record) :
    Recovers cfg m (record :: log) next := by
  obtain ⟨base, hbase, es, r, hchain⟩ := h
  obtain ⟨r', hchain'⟩ := hchain.extend hnext hdiff hrecord
  exact ⟨base, hbase, e :: es, r', hchain'⟩

theorem recovers_snapshot {v : TreeVersion} (hv : v.WF cfg.levelCount) (hfit : v.FieldsFit)
    (hfilled : ∀ level ∈ v.levels, ∀ run ∈ level, run ≠ []) {treeType : TreeType}
    (hid : m.snapshotId = v.id) (hwrite : v.encodeInto cfg.digest treeType = .ok m.archive) :
    Recovers cfg m [] v := by
  have hwf : v.WF v.levels.length := ⟨rfl, hv.distinctIds, hv.countsFit⟩
  refine ⟨v.snapshot, fun mode => ⟨treeType, ?_⟩, [], _, .snapshot (TreeVersion.snapshot_holds hv) hv⟩
  rw [hid]
  exact hfit.recover_encodeInto hwf hfilled hwrite

def TailInv (cfg : ManifestConfig) (m : ManifestState) : Prop :=
  match m.tail with
  | .whole => Recovers cfg m m.editLog m.latest
  | .torn => ∃ piece log, m.editLog = piece :: log ∧ TornRecord cfg.digest piece ∧
      Recovers cfg m log m.latest
  | .unacknowledged => ∃ record log next, ∃ e : VersionEdit, m.editLog = record :: log ∧
      e.record cfg.digest = .ok record ∧ Recovers cfg m log m.latest ∧
      Recovers cfg m m.editLog next
  | .damaged => True

structure Inv (cfg : ManifestConfig) (m : ManifestState) : Prop where
  tail : TailInv cfg m
  acknowledged : m.acknowledged = true → m.tail = .whole

section Recover

variable {log : List Bytes} {v : TreeVersion} {mode : ManifestRecoveryMode}

theorem recover_of_chain {rest : Bytes} (h : Recovers cfg m log v)
    (hlog : m.logFile = log.reverse.flatten ++ rest) (hrest : EndsReplay cfg.digest mode rest) :
    m.recover cfg mode = .ok v := by
  obtain ⟨base, hbase, es, r, h⟩ := h
  obtain ⟨treeType, hread⟩ := hbase mode
  have hgc : ∀ e ∈ es.reverse, e.gcStats ≠ some [] :=
    fun e he => h.gcStats_ne_nil e (List.mem_reverse.1 he)
  have hreplay := replayEdits_records h.writeAll hgc hrest
  have hfiles : ManifestFiles.recover cfg.digest mode ⟨m.snapshotId, m.archive, m.logFile⟩ = .ok r :=
    bind_eq_ok.2 ⟨_, hread, bind_eq_ok.2 ⟨es.reverse, by rw [hlog, hreplay], h.applyEdits⟩⟩
  apply bind_eq_ok.2
  refine ⟨r, hfiles, ?_⟩
  rw [h.holds.toVersion]
  rfl

theorem recover_whole (h : Recovers cfg m m.editLog m.latest)
    (mode : ManifestRecoveryMode) : m.recover cfg mode = .ok m.latest :=
  recover_of_chain h (List.append_nil _).symm endsReplay_nil

theorem recover_torn {piece : Bytes} (hlog : m.editLog = piece :: log)
    (hpiece : TornRecord cfg.digest piece) (h : Recovers cfg m log v)
    (hmode : mode ≠ .absoluteConsistency) : m.recover cfg mode = .ok v := by
  obtain ⟨e, record, n, hrecord, hn, rfl⟩ := hpiece
  apply recover_of_chain h _ (endsReplay_cut hrecord hn hmode)
  rw [logFile, hlog, List.reverse_cons, List.flatten_append, List.flatten_singleton]

end Recover

section Step

variable {treeType : TreeType} {next : TreeVersion} {archive : Archive}

theorem inv_created {v : TreeVersion} (hv : v.WF cfg.levelCount) (hfit : v.FieldsFit)
    (hfilled : ∀ level ∈ v.levels, ∀ run ∈ level, run ≠ [])
    (hwrite : v.encodeInto cfg.digest treeType = .ok archive) : Inv cfg (created v archive) :=
  ⟨recovers_snapshot hv hfit hfilled rfl hwrite, nofun⟩

theorem inv_rotated (hnext : next.WF cfg.levelCount) (hfit : next.FieldsFit)
    (hfilled : ∀ level ∈ next.levels, ∀ run ∈ level, run ≠ [])
    (hwrite : next.encodeInto cfg.digest treeType = .ok archive) :
    Inv cfg (m.rotated next archive) :=
  ⟨recovers_snapshot hnext hfit hfilled rfl hwrite, fun _ => rfl⟩

theorem Inv.withLogBytes (h : Inv cfg m) (n : Option ℕ) : Inv cfg { m with logBytes := n } :=
  ⟨h.tail, h.acknowledged⟩

variable {e : VersionEdit} {record : Bytes}

theorem inv_appended (h : Inv cfg m) (hwhole : m.tail = .whole) (hnext : next.WF cfg.levelCount)
    (hdiff : next.diff m.latest = .ok e) (hrecord : e.record cfg.digest = .ok record) :
    Inv cfg (m.appended record next) := by
  have htail : TailInv cfg m := h.tail
  simp only [TailInv, hwhole] at htail
  constructor
  · simp only [TailInv, appended, if_pos hwhole]
    exact htail.extend hnext hdiff hrecord
  · intro _
    exact if_pos hwhole

theorem inv_failedAppend (h : Inv cfg m) (hnext : next.WF cfg.levelCount)
    (hdiff : next.diff m.latest = .ok e) (hrecord : e.record cfg.digest = .ok record) (n : ℕ) :
    Inv cfg (m.failedAppend record n) := by
  unfold failedAppend
  by_cases hn : n = 0
  · rw [if_pos hn]
    exact h.withLogBytes none
  rw [if_neg hn]
  refine ⟨?_, nofun⟩
  by_cases hwhole : m.tail = .whole
  · have htail : TailInv cfg m := h.tail
    simp only [TailInv, hwhole] at htail
    by_cases hlt : n < record.length
    · simp only [TailInv, hwhole, ne_eq, not_true, if_false, if_pos hlt]
      exact ⟨_, _, rfl, ⟨e, record, n, hrecord, hlt, rfl⟩, htail⟩
    · simp only [TailInv, hwhole, ne_eq, not_true, if_false, if_neg hlt]
      rw [List.take_of_length_le (not_lt.1 hlt)]
      exact ⟨record, m.editLog, next, e, rfl, hrecord, htail, htail.extend hnext hdiff hrecord⟩
  · simp only [TailInv, ne_eq, hwhole, not_false_eq_true, if_true]

theorem inv_persistChange (h : Inv cfg m) (hnext : next.WF cfg.levelCount)
    (hfilled : ∀ level ∈ next.levels, ∀ run ∈ level, run ≠ []) {io : InstallIo}
    (hclean : Clean cfg m (.install next hnext hfilled io)) :
    Inv cfg (m.persistChange cfg treeType next io) := by
  unfold persistChange
  by_cases hsize : m.logSize < cfg.logRotateBytes
  · rw [if_pos hsize]
    cases hdiff : next.diff m.latest with
    | error => exact h.withLogBytes _
    | ok e =>
      dsimp only
      cases hrecord : e.record cfg.digest with
      | error => exact h.withLogBytes _
      | ok record =>
        cases io with
        | complete =>
          rw [Clean, if_pos hsize] at hclean
          exact inv_appended h hclean hnext hdiff hrecord
        | fails n => exact inv_failedAppend h hnext hdiff hrecord n
  · rw [if_neg hsize]
    cases io with
    | fails n => exact h.withLogBytes _
    | complete =>
      rw [rotate]
      cases hwrite : next.encodeInto cfg.digest treeType with
      | error => exact h.withLogBytes _
      | ok archive =>
        rw [Clean, if_neg hsize] at hclean
        exact inv_rotated hnext hclean hfilled hwrite

end Step

section Crash

/-- What is on disk after a crash: a chain to some version, up to a torn record. -/
def Resumable (cfg : ManifestConfig) (m : ManifestState) : Prop :=
  match m.tail with
  | .whole => ∃ v, Recovers cfg m m.editLog v
  | .torn => ∃ v piece log, m.editLog = piece :: log ∧ TornRecord cfg.digest piece ∧
      Recovers cfg m log v
  | .unacknowledged => False
  | .damaged => True

theorem TornRecord.take {digest : Digest} {piece : Bytes} (h : TornRecord digest piece)
    (keep : ℕ) : TornRecord digest (piece.take keep) := by
  obtain ⟨e, record, n, hrecord, hn, rfl⟩ := h
  refine ⟨e, record, min keep n, hrecord, ?_, List.take_take⟩
  exact lt_of_le_of_lt (min_le_right _ _) hn

theorem resumable_cut_of_chain {v : TreeVersion} (h : Recovers cfg m m.editLog v)
    (htail : m.tail = .whole ∨ m.tail = .unacknowledged) (keep : ℕ) :
    Resumable cfg (m.cut keep) := by
  have hcut : ∀ last rest, m.editLog = last :: rest → m.cutTail keep =
      if keep = 0 ∨ last.length ≤ keep then .whole else .torn := by
    intro last rest hlog
    rcases htail with htail | htail <;> simp only [cutTail, htail, hlog]
  obtain ⟨base, hbase, es, r, hchain⟩ := h
  generalize hlog : m.editLog = log at hchain hcut
  cases hchain with
  | snapshot hholds hwf =>
    have hwhole : m.cutTail keep = .whole := by
      rcases htail with htail | htail <;> simp only [cutTail, htail, hlog]
    simp only [Resumable, cut, hwhole, cutLog, hlog]
    exact ⟨v, base, hbase, [], _, .snapshot hholds hwf⟩
  | @record log es r _ prior _ e record hprior hwf hdiff hrecord happly hholds =>
    have hcut' := hcut record log rfl
    by_cases hkeep : keep = 0
    · rw [if_pos (Or.inl hkeep)] at hcut'
      simp only [Resumable, cut, hcut', cutLog, hlog, if_pos hkeep]
      exact ⟨prior, base, hbase, es, r, hprior⟩
    · by_cases hlen : record.length ≤ keep
      · rw [if_pos (Or.inr hlen)] at hcut'
        simp only [Resumable, cut, hcut', cutLog, hlog, if_neg hkeep, List.take_of_length_le hlen]
        exact ⟨v, base, hbase, e :: es, _, .record hprior hwf hdiff hrecord happly hholds⟩
      · rw [if_neg (not_or.2 ⟨hkeep, hlen⟩)] at hcut'
        simp only [Resumable, cut, hcut', cutLog, hlog, if_neg hkeep]
        exact ⟨prior, _, log, rfl, ⟨e, record, keep, hrecord, not_le.1 hlen, rfl⟩, base, hbase, es, r,
          hprior⟩

theorem Inv.resumable_cut (h : Inv cfg m) (keep : ℕ) : Resumable cfg (m.cut keep) := by
  have htail : TailInv cfg m := h.tail
  cases hm : m.tail with
  | whole =>
    simp only [TailInv, hm] at htail
    exact resumable_cut_of_chain htail (Or.inl hm) keep
  | unacknowledged =>
    simp only [TailInv, hm] at htail
    obtain ⟨_, _, _, _, _, _, _, hnext⟩ := htail
    exact resumable_cut_of_chain hnext (Or.inr hm) keep
  | damaged => simp only [Resumable, cut, cutTail, hm]
  | torn =>
    simp only [TailInv, hm] at htail
    obtain ⟨piece, log, hlog, hpiece, hchain⟩ := htail
    by_cases hkeep : keep = 0
    · simp only [Resumable, cut, cutTail, hm, if_pos hkeep, cutLog, hlog]
      exact ⟨m.latest, hchain⟩
    · simp only [Resumable, cut, cutTail, hm, if_neg hkeep, cutLog, hlog]
      exact ⟨m.latest, _, log, rfl, hpiece.take keep, hchain⟩

theorem inv_reopen (h : Resumable cfg m) {mode : ManifestRecoveryMode}
    (hmode : mode ≠ .absoluteConsistency) {m' : ManifestState} (hopen : m.reopen cfg mode = some m') :
    Inv cfg m' := by
  unfold reopen at hopen
  split at hopen
  case h_2 => cases hopen
  case h_1 v hrecover =>
    cases hopen
    refine ⟨?_, nofun⟩
    cases hm : m.tail with
    | whole =>
      simp only [Resumable, hm] at h
      obtain ⟨v', hchain⟩ := h
      rw [recover_of_chain hchain (List.append_nil _).symm endsReplay_nil] at hrecover
      cases hrecover
      simp only [TailInv]
      exact hchain
    | torn =>
      simp only [Resumable, hm] at h
      obtain ⟨v', piece, log, hlog, hpiece, hchain⟩ := h
      rw [recover_torn hlog hpiece hchain hmode] at hrecover
      cases hrecover
      simp only [TailInv]
      exact ⟨piece, log, hlog, hpiece, hchain⟩
    | unacknowledged =>
      simp only [Resumable, hm] at h
    | damaged => simp only [TailInv]

end Crash

theorem inv_step {treeType : TreeType} {m' : ManifestState} {a : ManifestAction cfg.levelCount}
    (h : Inv cfg m) (hclean : Clean cfg m a) (hstep : m.step cfg treeType a = some m') :
    Inv cfg m' := by
  cases a with
  | install next hnext hfilled io =>
    cases hstep
    exact inv_persistChange h hnext hfilled hclean
  | crash keep mode hmode => exact inv_reopen (h.resumable_cut keep) hmode hstep

/-- Along every history whose installs append only to a log that ends in the latest version, and
rotate only to snapshots whose counts fit: what an acknowledged install made durable is what recovery
returns in every mode, and a record torn after it is dropped by every mode that tolerates one. -/
theorem run_recover {treeType : TreeType} {v : TreeVersion} (hv : v.WF cfg.levelCount)
    (hfit : v.FieldsFit) (hfilled : ∀ level ∈ v.levels, ∀ run ∈ level, run ≠ []) {archive : Archive}
    (hwrite : v.encodeInto cfg.digest treeType = .ok archive)
    {as : List (ManifestAction cfg.levelCount)}
    (h : Transition.Run (step cfg treeType) (Clean cfg) (created v archive) as m) :
    (m.acknowledged = true → ∀ mode, m.recover cfg mode = .ok m.latest) ∧
      (m.tail = .torn → ∀ mode, mode ≠ .absoluteConsistency →
        m.recover cfg mode = .ok m.latest) := by
  have hinv : Inv cfg m := h.invariant (fun _ _ _ hm hclean hstep => inv_step hm hclean hstep)
    (inv_created hv hfit hfilled hwrite)
  have htail : TailInv cfg m := hinv.tail
  constructor
  · intro hack
    simp only [TailInv, hinv.acknowledged hack] at htail
    exact recover_whole htail
  · intro htorn mode hmode
    simp only [TailInv, htorn] at htail
    obtain ⟨piece, log, hlog, hpiece, hchain⟩ := htail
    exact recover_torn hlog hpiece hchain hmode

section TornLog

theorem persistChange_complete {treeType : TreeType} {next : TreeVersion} {e : VersionEdit}
    {record : Bytes} (hsize : m.logSize < cfg.logRotateBytes)
    (hdiff : next.diff m.latest = .ok e) (hrecord : e.record cfg.digest = .ok record) :
    m.persistChange cfg treeType next .complete = m.appended record next := by
  rw [persistChange, if_pos hsize, hdiff]
  simp only [hrecord]

theorem persistChange_fails {treeType : TreeType} {next : TreeVersion} {e : VersionEdit}
    {record : Bytes} {n : ℕ} (hsize : m.logSize < cfg.logRotateBytes)
    (hdiff : next.diff m.latest = .ok e) (hrecord : e.record cfg.digest = .ok record) :
    m.persistChange cfg treeType next (.fails n) = m.failedAppend record n := by
  rw [persistChange, if_pos hsize, hdiff]
  simp only [hrecord]

def tableOfId (id : U64) : TableHandle := ⟨⟨id, 7, 0⟩, none⟩

def versionOfIds (id : U64) (ids : List U64) : TreeVersion where
  id := id
  levels := [if ids.isEmpty then [] else [ids.map tableOfId], []]
  blobFiles := IdMap.empty
  gcStats := IdMap.empty
  retentionFloor := 0

abbrev emptyVersion : TreeVersion := versionOfIds 0 []

abbrev smallManifest (digest : Digest) : ManifestConfig := ⟨digest, 65536, 2⟩

theorem empty_fits : emptyVersion.FieldsFit :=
  ⟨by decide, by decide, by decide, by decide, by decide, by decide, by decide, by decide⟩

theorem empty_written (digest : Digest) :
    ∃ archive, emptyVersion.encodeInto digest .standard = .ok archive :=
  TreeVersion.exists_encodeInto digest .standard empty_fits.blobFiles empty_fits.restrictions
    empty_fits.bounds

theorem twoTables_record (digest : Digest) : ∃ e record,
    (versionOfIds 1 [1, 2]).diff emptyVersion = .ok e ∧
      e.record digest = .ok record ∧ record.take 4 = [103, 0, 0, 0] ∧ record.length = 115 :=
  ⟨_, _, rfl, rfl, rfl, rfl⟩

theorem oneTable_record (digest : Digest) : ∃ e record,
    (versionOfIds 1 [3]).diff emptyVersion = .ok e ∧
      e.record digest = .ok record ∧
      readFramedRecord digest (2 ^ 64 - 1) none ([103, 0, 0, 0] ++ record) = .tailTruncation :=
  ⟨_, _, rfl, rfl, rfl⟩

theorem twoTables_torn (digest : Digest) (archive : Archive) :
    (created emptyVersion archive).persistChange (smallManifest digest) .standard
        (versionOfIds 1 [1, 2]) (.fails 4) =
      ⟨archive, 0, [[103, 0, 0, 0]], emptyVersion, none, .torn,
        false⟩ := by
  obtain ⟨e, record, hdiff, hrecord, htake, hlength⟩ := twoTables_record digest
  have hsize : (created emptyVersion archive).logSize <
      (smallManifest digest).logRotateBytes := show 0 < 65536 by decide
  rw [persistChange_fails hsize hdiff hrecord, failedAppend, htake, hlength]
  rfl

/-- A flush of two tables fails with four bytes of its record written, a flush of one table
follows and is acknowledged. -/
def tornThenFlush : List (ManifestAction 2) :=
  [.install (versionOfIds 1 [1, 2]) ⟨rfl, by decide, by decide⟩ (by decide) (.fails 4),
    .install (versionOfIds 1 [3]) ⟨rfl, by decide, by decide⟩ (by decide) .complete]

/-- The length field left by the failed append frames the record of the acknowledged one as the
front part of a longer record. Whatever the digest, no mode recovers the acknowledged version. -/
theorem tornThenFlush_loses_install :
    versionOfIds 1 [3] ≠ emptyVersion ∧
    ∀ digest : Digest, ∃ (archive : Archive) (m : ManifestState),
      emptyVersion.encodeInto digest .standard = .ok archive ∧
        Transition.exec (step (smallManifest digest) .standard)
          (created emptyVersion archive) tornThenFlush = some m ∧
        m.acknowledged = true ∧ m.latest = versionOfIds 1 [3] ∧
        ∀ mode, m.recover (smallManifest digest) mode ≠ .ok m.latest := by
  refine ⟨by decide, fun digest => ?_⟩
  obtain ⟨archive, hwrite⟩ := empty_written digest
  obtain ⟨e, record, hdiff, hrecord, hread⟩ := oneTable_record digest
  have hsnapshot : ∀ mode, archive.recover digest mode 0 =
      .ok (.standard, emptyVersion.snapshot) := fun mode =>
    empty_fits.recover_encodeInto ⟨rfl, by decide, by decide⟩ (by decide) hwrite
  have hsize : logSize ⟨archive, 0, [[103, 0, 0, 0]], emptyVersion,
      none, .torn, false⟩ < (smallManifest digest).logRotateBytes := show 4 < 65536 by decide
  refine ⟨archive, ⟨archive, 0, [record, [103, 0, 0, 0]], versionOfIds 1 [3],
    some (4 + record.length), .damaged, true⟩, hwrite, ?_, rfl, rfl, fun mode => ?_⟩
  · simp only [tornThenFlush, Transition.exec, step, Option.bind_some, twoTables_torn]
    rw [persistChange_complete hsize hdiff hrecord]
    rfl
  · have hreplay : replayEdits digest mode ([103, 0, 0, 0] ++ record) =
        if mode = .absoluteConsistency then .error (.tornManifestEditLog "truncated")
        else .ok [] := by
      rw [replayEdits, replayFrom, hread]
      rfl
    have hlog : [record, [103, 0, 0, 0]].reverse.flatten = [103, 0, 0, 0] ++ record := by
      rw [List.reverse_cons, List.reverse_singleton, List.singleton_append, List.flatten_cons,
        List.flatten_singleton]
    simp only [recover, ManifestFiles.recover, hsnapshot, logFile, hlog, bind, Except.bind, hreplay]
    by_cases hmode : mode = .absoluteConsistency
    · rw [if_pos hmode]
      intro h
      cases h
    · rw [if_neg hmode]
      exact fun h => absurd (Except.ok.inj h)
        (show emptyVersion ≠ versionOfIds 1 [3] by decide)

/-- The same failure, but the crash that follows cuts the torn record away. -/
def tornThenCut : List (ManifestAction 2) :=
  [.install (versionOfIds 1 [1, 2]) ⟨rfl, by decide, by decide⟩ (by decide) (.fails 4),
    .crash 0 .tolerateCorruptedTailRecords nofun,
    .install (versionOfIds 1 [3]) ⟨rfl, by decide, by decide⟩ (by decide) .complete]

theorem tornThenCut_run {archive : Archive}
    (hwrite : emptyVersion.encodeInto (fun _ => 0) .standard =
      .ok archive) :
    ∃ m, Transition.Run (step (smallManifest fun _ => 0) .standard)
      (Clean (smallManifest fun _ => 0))
      (created emptyVersion archive) tornThenCut m ∧ m.acknowledged = true := by
  obtain ⟨e, record, hdiff, hrecord, -⟩ := oneTable_record fun _ => 0
  have hreopened : recover (smallManifest fun _ => 0)
      ⟨archive, 0, [], emptyVersion, none, .whole, false⟩
      .tolerateCorruptedTailRecords = .ok emptyVersion :=
    recover_of_chain (recovers_snapshot ⟨rfl, by decide, by decide⟩ empty_fits (by decide) rfl hwrite)
      rfl endsReplay_nil
  have hcut : reopen (smallManifest fun _ => 0)
      (cut ⟨archive, 0, [[103, 0, 0, 0]], emptyVersion, none, .torn,
        false⟩ 0) .tolerateCorruptedTailRecords =
      some ⟨archive, 0, [], emptyVersion, none, .whole, false⟩ := by
    rw [cut, cutLog, cutTail, reopen]
    simp only [if_true]
    rw [hreopened]
  have hsize : logSize ⟨archive, 0, [], emptyVersion, none, .whole,
      false⟩ < (smallManifest fun _ => 0).logRotateBytes := show 0 < 65536 by decide
  refine ⟨_, .cons (congrArg some (twoTables_torn _ archive)) trivial (.cons hcut trivial
    (.cons (congrArg some (persistChange_complete hsize hdiff hrecord)) ?_ (.nil _))), rfl⟩
  rw [Clean, if_pos hsize]

theorem tornThenCut_recovers : ∃ (archive : Archive) (m : ManifestState),
    Transition.Run (step (smallManifest fun _ => 0) .standard)
      (Clean (smallManifest fun _ => 0))
      (created emptyVersion archive) tornThenCut m ∧ m.acknowledged = true ∧
      m.recover (smallManifest fun _ => 0) .absoluteConsistency = .ok m.latest := by
  obtain ⟨archive, hwrite⟩ := empty_written fun _ => 0
  obtain ⟨m, hrun, hack⟩ := tornThenCut_run hwrite
  refine ⟨archive, m, hrun, hack, (run_recover ?_ empty_fits ?_ ?_ hrun).1 hack _⟩
  · exact ⟨rfl, by decide, by decide⟩
  · decide
  · exact hwrite

end TornLog

end ManifestState

end LsmTree
