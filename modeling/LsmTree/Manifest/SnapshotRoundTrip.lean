import LsmTree.Manifest.Diff
import LsmTree.Manifest.Snapshot

/-! A snapshot is read back as the version it was written from exactly when every count fits the
field it was cast to. -/
namespace LsmTree

open Codec List Nat

structure TreeVersion.FieldsFit (v : TreeVersion) : Prop where
  levels : v.levels.length < 256
  runs : ∀ level ∈ v.levels, level.length < 256
  tables : ∀ level ∈ v.levels, ∀ run ∈ level, run.length < 256 ^ 4
  blobFiles : v.blobFiles.entries.length < 256 ^ 4
  gcEntries : v.gcStats.entries.length < 256 ^ 4
  blobCounts : v.gcStats.CountsFit
  restrictions : v.restrictions.length < 256 ^ 4
  bounds : ∀ r ∈ v.restrictions, r.2.length < 256 ^ 4

section Written

variable {α β : Type} {digest : Digest} {s : RecordSection α}

/-- The bytes are one framed record, which decodes to `a`. -/
def RecordSection.Holds (s : RecordSection α) (digest : Digest) (record : Bytes) (a : α) : Prop :=
  ∃ payload, writeFramedRecord digest payload = .ok record ∧ payload.length = s.payloadLen ∧
    Reads s.read payload a

variable {record : Bytes} {a : α}

theorem RecordSection.Holds.length (h : s.Holds digest record a) :
    record.length = s.framedLen := by
  obtain ⟨payload, hwrite, hlen, -⟩ := h
  rw [writeFramedRecord_length hwrite, hlen, framedLen]

theorem RecordSection.Holds.read (h : s.Holds digest record a) (rest : Bytes) :
    ∃ payload, s.decode payload = .ok a ∧
      readFramedRecord digest (record ++ rest).length (some s.payloadLen) (record ++ rest) =
        .ok payload rest := by
  obtain ⟨payload, hwrite, hlen, hread⟩ := h
  refine ⟨payload, ?_, readFramedRecord_whole ?_ ?_ hwrite rest⟩
  · rw [decode, if_neg (not_not.2 hlen), hread.run_eq]
  · rw [length_append, writeFramedRecord_length hwrite]
    omega
  · intro n hn
    exact hlen.trans (Option.some.inj hn)

theorem readRecords_written (mode : ManifestRecoveryMode) {enc : β → Except ManifestError Bytes}
    {f : β → α} {bs : List β}
    (henc : ∀ b ∈ bs, ∀ record, enc b = .ok record → s.Holds digest record (f b)) {bytes : Bytes}
    (hbytes : writeAll enc bs = .ok bytes) (rest : Bytes) :
    readRecords digest s mode bs.length (bytes ++ rest) = .ok (bs.map f, some rest) := by
  induction bs generalizing bytes with
  | nil =>
    cases hbytes
    rfl
  | cons b bs ih =>
    obtain ⟨hb, hbs⟩ := forall_mem_cons.1 henc
    obtain ⟨record, hrecord, hbytes⟩ := bind_eq_ok.1 hbytes
    obtain ⟨records, hrecords, hbytes⟩ := bind_eq_ok.1 hbytes
    cases hbytes
    obtain ⟨payload, hdecode, hread⟩ := (hb record hrecord).read (records ++ rest)
    rw [append_assoc, length_cons, readRecords, hread]
    simp only [hdecode, ih hbs hrecords]
    rfl

theorem encodeTableRecord_holds {t : TableHandle} (h : encodeTableRecord digest t = .ok record) :
    tablesSection.Holds digest record t.desc := by
  obtain ⟨payload, hpayload, h⟩ := bind_eq_ok.1 h
  refine ⟨payload, h, ?_, encodeTableDesc_roundTrip _ _ hpayload⟩
  cases hpayload
  simp [tablesSection]

theorem encodeBlobRecord_holds {x : U64 × BlobFileHandle}
    (h : encodeBlobRecord digest x = .ok record) :
    blobFilesSection.Holds digest record ⟨x.1, x.2.checksum⟩ := by
  obtain ⟨payload, hpayload, h⟩ := bind_eq_ok.1 h
  refine ⟨payload, h, ?_, encodeAddedBlobFile_roundTrip _ _ hpayload⟩
  cases hpayload
  simp [blobFilesSection]

theorem exists_encodeTableRecord (digest : Digest) (t : TableHandle) :
    ∃ record, encodeTableRecord digest t = .ok record := by
  refine ⟨_, bind_eq_ok.2 ⟨_, rfl, if_neg ?_⟩⟩
  simp [maxFramePayload]

theorem exists_encodeBlobRecord (digest : Digest) (x : U64 × BlobFileHandle) :
    ∃ record, encodeBlobRecord digest x = .ok record := by
  refine ⟨_, bind_eq_ok.2 ⟨_, rfl, if_neg ?_⟩⟩
  simp [maxFramePayload]

end Written

section Tables

variable {digest : Digest} (mode : ManifestRecoveryMode)

theorem readRuns_written {level : List (List TableHandle)} (hne : ∀ run ∈ level, run ≠ [])
    (hfit : ∀ run ∈ level, run.length < 256 ^ 4) {bytes : Bytes}
    (hbytes : writeAll (encodeRun digest) level = .ok bytes) (rest : Bytes) :
    readRuns digest mode level.length (bytes ++ rest) =
      .ok (TreeVersion.layout level, some rest) := by
  induction level generalizing bytes with
  | nil =>
    cases hbytes
    rfl
  | cons run level ih =>
    obtain ⟨hrunne, hne⟩ := forall_mem_cons.1 hne
    obtain ⟨hrunfit, hfit⟩ := forall_mem_cons.1 hfit
    obtain ⟨x, hx, hbytes⟩ := bind_eq_ok.1 hbytes
    obtain ⟨xs, hxs, hbytes⟩ := bind_eq_ok.1 hbytes
    cases hbytes
    obtain ⟨records, hrecords, hx⟩ := bind_eq_ok.1 hx
    cases hx
    have hholds : ∀ t ∈ run, ∀ record, encodeTableRecord digest t = .ok record →
        tablesSection.Holds digest record t.desc := fun t _ record => encodeTableRecord_holds
    have hlen := writeAll_length (fun t ht record h => (hholds t ht record h).length) hrecords
    have hroom : ¬ ((records ++ (xs ++ rest)).length < run.length * tablesSection.framedLen ∧
        mode.toleratesTail = false) := by
      rw [length_append, hlen]
      omega
    have hread := readRecords_written mode hholds hrecords (xs ++ rest)
    have hmap : (run.map (·.desc)).isEmpty = false := by
      rw [isEmpty_eq_false_iff, Ne, map_eq_nil_iff]
      exact hrunne
    rw [append_assoc, append_assoc, length_cons, readRuns,
      reads_encodeLe hrunfit]
    simp only [if_neg hroom, hread, bind, Except.bind, ih hne hfit hxs, pushRun, hmap]
    rfl

theorem readLevels_written {levels : List (List (List TableHandle))}
    (hne : ∀ level ∈ levels, ∀ run ∈ level, run ≠ [])
    (hruns : ∀ level ∈ levels, level.length < 256)
    (htables : ∀ level ∈ levels, ∀ run ∈ level, run.length < 256 ^ 4) {bytes : Bytes}
    (hbytes : writeAll (encodeLevel digest) levels = .ok bytes) (rest : Bytes) :
    readLevels digest mode levels.length (bytes ++ rest) =
      .ok (levels.map TreeVersion.layout) := by
  induction levels generalizing bytes with
  | nil => rfl
  | cons level levels ih =>
    obtain ⟨hlevelne, hne⟩ := forall_mem_cons.1 hne
    obtain ⟨hlevelruns, hruns⟩ := forall_mem_cons.1 hruns
    obtain ⟨hleveltables, htables⟩ := forall_mem_cons.1 htables
    obtain ⟨x, hx, hbytes⟩ := bind_eq_ok.1 hbytes
    obtain ⟨xs, hxs, hbytes⟩ := bind_eq_ok.1 hbytes
    cases hbytes
    obtain ⟨runs, hwritten, hx⟩ := bind_eq_ok.1 hx
    cases hx
    have hread := readRuns_written mode hlevelne hleveltables hwritten (xs ++ rest)
    rw [append_assoc, append_assoc, length_cons, readLevels,
      reads_encodeLe (n := 1) hlevelruns]
    simp only [hread, bind, Except.bind, ih hne hruns htables hxs]
    rfl

end Tables

section Bounds

variable {α : Type} {digest : Digest} {s : RecordSection α} {mode : ManifestRecoveryMode}

variable {n : ℕ} {bytes : Bytes} {rest : Option Bytes}

theorem readRecords_length_le {as : List α} (h : readRecords digest s mode n bytes = .ok (as, rest)) :
    as.length ≤ n := by
  induction n generalizing bytes as rest with
  | zero =>
    cases h
    exact le_rfl
  | succ n ih =>
    rw [readRecords] at h
    split at h
    case h_1 =>
      split at h
      case h_1 =>
        obtain ⟨⟨as', rest'⟩, hrest, h⟩ := bind_eq_ok.1 h
        cases h
        exact succ_le_succ (ih hrest)
      case h_2 =>
        split_ifs at h
        · exact (ih h).trans n.le_succ
        · cases h
          exact zero_le _
    case h_3 =>
      split_ifs at h
      · exact (ih h).trans n.le_succ
      · cases h
        exact zero_le _
    case h_5 => cases h
    all_goals
      split_ifs at h
      cases h
      exact zero_le _

theorem pushRun_length_le (run : List TableDesc) (runs : List (List TableDesc)) :
    (pushRun run runs).length ≤ runs.length + 1 := by
  rw [pushRun]
  split_ifs
  · exact le_succ _
  · exact le_rfl

variable {runs : List (List TableDesc)}

theorem mem_pushRun {run r : List TableDesc} (h : r ∈ pushRun run runs) : r = run ∨ r ∈ runs := by
  rw [pushRun] at h
  split_ifs at h
  · exact Or.inr h
  · exact mem_cons.1 h

theorem readRuns_bounds (h : readRuns digest mode n bytes = .ok (runs, rest)) :
    runs.length ≤ n ∧ ∀ run ∈ runs, run.length < 256 ^ 4 := by
  induction n generalizing bytes runs rest with
  | zero =>
    cases h
    exact ⟨le_rfl, fun _ hrun => nomatch hrun⟩
  | succ n ih =>
    rw [readRuns] at h
    split at h
    · split_ifs at h
      cases h
      exact ⟨zero_le _, fun _ hrun => nomatch hrun⟩
    · rename_i tableCount bytes' _
      split_ifs at h
      obtain ⟨⟨run, rest'⟩, hrun, h⟩ := bind_eq_ok.1 h
      have hlen := lt_of_le_of_lt (readRecords_length_le hrun) tableCount.isLt
      cases rest' with
      | none =>
        cases h
        refine ⟨(pushRun_length_le run []).trans (succ_le_succ n.zero_le), fun r hr => ?_⟩
        rcases mem_pushRun hr with rfl | hr
        · exact hlen
        · cases hr
      | some rest' =>
        obtain ⟨⟨runs', _⟩, hruns, h⟩ := bind_eq_ok.1 h
        cases h
        obtain ⟨hcount, hall⟩ := ih hruns
        refine ⟨(pushRun_length_le run runs').trans (succ_le_succ hcount), fun r hr => ?_⟩
        rcases mem_pushRun hr with rfl | hr
        · exact hlen
        · exact hall r hr

variable {levels : List (List (List TableDesc))}

theorem readLevels_bounds (h : readLevels digest mode n bytes = .ok levels) : levels.length = n ∧
      ∀ level ∈ levels, level.length < 256 ∧ ∀ run ∈ level, run.length < 256 ^ 4 := by
  have hempty : ∀ n, ∀ level ∈ List.replicate n ([] : List (List TableDesc)),
      level.length < 256 ∧ ∀ run ∈ level, run.length < 256 ^ 4 := by
    intro n level hlevel
    rw [eq_of_mem_replicate hlevel]
    exact ⟨by decide, fun _ hrun => nomatch hrun⟩
  induction n generalizing bytes levels with
  | zero =>
    cases h
    exact ⟨rfl, hempty 0⟩
  | succ n ih =>
    rw [readLevels] at h
    split at h
    · split_ifs at h
      cases h
      exact ⟨length_replicate, hempty (n + 1)⟩
    · rename_i runCount bytes' _
      obtain ⟨⟨runs, rest⟩, hruns, h⟩ := bind_eq_ok.1 h
      obtain ⟨hcount, hall⟩ := readRuns_bounds hruns
      have hlevel := lt_of_le_of_lt hcount runCount.isLt
      cases rest with
      | none =>
        cases h
        refine ⟨?_, forall_mem_cons.2 ⟨⟨hlevel, hall⟩, hempty n⟩⟩
        rw [length_cons, length_replicate]
      | some rest =>
        obtain ⟨levels', hlevels, h⟩ := bind_eq_ok.1 h
        cases h
        obtain ⟨hlen, hrest⟩ := ih hlevels
        exact ⟨by rw [length_cons, hlen], forall_mem_cons.2 ⟨⟨hlevel, hall⟩, hrest⟩⟩

theorem readTables_bounds (h : readTables digest mode bytes = .ok levels) : levels.length < 256 ∧
      ∀ level ∈ levels, level.length < 256 ∧ ∀ run ∈ level, run.length < 256 ^ 4 := by
  rw [readTables] at h
  split at h
  · split_ifs at h
    cases h
    exact ⟨by decide, fun _ hlevel => nomatch hlevel⟩
  · rename_i levelCount bytes' _
    obtain ⟨hlen, hall⟩ := readLevels_bounds h
    exact ⟨hlen ▸ levelCount.isLt, hall⟩

theorem readBlobFiles_bounds {files : List (U64 × U128)}
    (h : readBlobFiles digest mode bytes = .ok files) : files.length < 256 ^ 4 := by
  rw [readBlobFiles] at h
  split at h
  · split_ifs at h
    cases h
    decide
  · rename_i count rest _
    split_ifs at h
    obtain ⟨⟨records, _⟩, hrecords, h⟩ := bind_eq_ok.1 h
    cases h
    rw [length_insertionSort, length_map]
    exact lt_of_le_of_lt (readRecords_length_le hrecords) count.isLt

variable {m : FragmentationMap}

theorem decode_bounds (h : FragmentationMap.decode bytes = .ok m) :
    m.entries.length < 256 ^ 4 ∧ m.CountsFit := by
  rw [FragmentationMap.decode] at h
  split at h
  · rename_i entries rest hread
    cases h
    refine ⟨lt_of_le_of_lt (IdMap.ofList_length_le entries) (readList_length hread), ?_⟩
    intro x hx
    obtain ⟨⟨count, bytes'⟩, -, hread⟩ := Option.bind_eq_some_iff.1 hread
    refine forall_mem_repeatRead (q := fun x => x.2.len.val < 256 ^ 4) ?_ hread x
      (IdMap.mem_ofList hx)
    intro bytes a rest ha
    obtain ⟨_, -, ha⟩ := Option.bind_eq_some_iff.1 ha
    obtain ⟨⟨len, _⟩, -, ha⟩ := Option.bind_eq_some_iff.1 ha
    obtain ⟨_, -, ha⟩ := Option.bind_eq_some_iff.1 ha
    obtain ⟨_, -, ha⟩ := Option.bind_eq_some_iff.1 ha
    cases ha
    exact len.isLt
  · cases h

theorem readGcStats_bounds (h : readGcStats mode bytes = .ok m) :
    m.entries.length < 256 ^ 4 ∧ m.CountsFit := by
  rw [readGcStats] at h
  split at h
  · split_ifs at h
    cases h
    exact ⟨by decide, fun _ hx => nomatch hx⟩
  · exact decode_bounds h

end Bounds

namespace TreeVersion

variable {digest : Digest} {mode : ManifestRecoveryMode} {treeType : TreeType} {v : TreeVersion}
  {archive : Archive}

section Sections

theorem readTables_encodeTables (hfit : v.FieldsFit)
    (hne : ∀ level ∈ v.levels, ∀ run ∈ level, run ≠ []) {bytes : Bytes}
    (h : v.encodeTables digest = .ok bytes) :
    readTables digest mode bytes = .ok (v.levels.map layout) := by
  obtain ⟨levels, hlevels, h⟩ := bind_eq_ok.1 h
  cases h
  have hread := readLevels_written mode hne hfit.runs hfit.tables hlevels []
  rw [append_nil] at hread
  rw [readTables, reads_encodeLe (n := 1) hfit.levels]
  exact hread

theorem readBlobFiles_encodeBlobFiles (hfit : v.FieldsFit) {bytes : Bytes}
    (h : v.encodeBlobFiles digest = .ok bytes) :
    readBlobFiles digest mode bytes = .ok (v.blobFiles.entries.map fun x => (x.1, x.2.checksum)) := by
  obtain ⟨records, hrecords, h⟩ := bind_eq_ok.1 h
  cases h
  have hholds : ∀ x ∈ v.blobFiles.entries, ∀ record, encodeBlobRecord digest x = .ok record →
      blobFilesSection.Holds digest record ⟨x.1, x.2.checksum⟩ :=
    fun x _ record => encodeBlobRecord_holds
  have hlen := writeAll_length (fun x hx record h => (hholds x hx record h).length) hrecords
  have hread := readRecords_written mode hholds hrecords []
  rw [append_nil] at hread
  have hroom : ¬ (((encodeLe 4 v.blobFiles.entries.length ++ records).length - 4) /
      blobFilesSection.framedLen < v.blobFiles.entries.length ∧ mode.toleratesTail = false) := by
    rw [length_append, encodeLe_length, Nat.add_sub_cancel_left, hlen,
      Nat.mul_div_cancel _ (by decide)]
    omega
  have hsorted : (v.blobFiles.entries.map fun x => (x.1, x.2.checksum)).Pairwise
      fun x y => x.1 ≤ y.1 := pairwise_map.2 (v.blobFiles.sorted.imp le_of_lt)
  rw [readBlobFiles, reads_encodeLe hfit.blobFiles]
  simp only [if_neg hroom, hread, bind, Except.bind, map_map]
  exact congrArg Except.ok hsorted.insertionSort_eq

theorem parseIdSection_writeList {α : Type} {name : String} {overflow : ManifestError}
    {enc : U64 × α → Except ManifestError Bytes} {entry : Reader (U64 × α)}
    (henc : RoundTrip enc entry) {entries : List (U64 × α)}
    (hdistinct : entries.Pairwise fun x y => x.1 ≠ y.1) {bytes : Bytes}
    (h : writeList overflow enc entries = .ok bytes) :
    parseIdSection name entry bytes = .ok (IdMap.ofList entries) := by
  rw [parseIdSection, (henc.list entries bytes h).run_eq]
  exact if_pos (pairwise_map.2 hdistinct)

end Sections

theorem exists_encodeTables (digest : Digest) (v : TreeVersion) :
    ∃ bytes, v.encodeTables digest = .ok bytes := by
  have hrun (run : List TableHandle) : ∃ bytes, encodeRun digest run = .ok bytes := by
    obtain ⟨records, hrecords⟩ := writeAll_eq_ok.2 fun t (_ : t ∈ run) =>
      exists_encodeTableRecord digest t
    exact ⟨_, bind_eq_ok.2 ⟨records, hrecords, rfl⟩⟩
  have hlevel (level : List (List TableHandle)) : ∃ bytes, encodeLevel digest level = .ok bytes := by
    obtain ⟨runs, hruns⟩ := writeAll_eq_ok.2 fun run (_ : run ∈ level) => hrun run
    exact ⟨_, bind_eq_ok.2 ⟨runs, hruns, rfl⟩⟩
  obtain ⟨levels, hlevels⟩ := writeAll_eq_ok.2 fun level (_ : level ∈ v.levels) => hlevel level
  exact ⟨_, bind_eq_ok.2 ⟨levels, hlevels, rfl⟩⟩

theorem exists_encodeBlobFiles (digest : Digest) (v : TreeVersion) :
    ∃ bytes, v.encodeBlobFiles digest = .ok bytes := by
  obtain ⟨records, hrecords⟩ := writeAll_eq_ok.2 fun x (_ : x ∈ v.blobFiles.entries) =>
    exists_encodeBlobRecord digest x
  exact ⟨_, bind_eq_ok.2 ⟨records, hrecords, rfl⟩⟩

theorem blobRestrictions_length_le (v : TreeVersion) :
    v.blobRestrictions.length ≤ v.blobFiles.entries.length := by
  rw [blobRestrictions, length_map]
  exact length_filter_le _ _

theorem exists_encodeInto (digest : Digest) (treeType : TreeType)
    (hblobFiles : v.blobFiles.entries.length < 256 ^ 4)
    (hrestrictions : v.restrictions.length < 256 ^ 4)
    (hbounds : ∀ r ∈ v.restrictions, r.2.length < 256 ^ 4) :
    ∃ archive, v.encodeInto digest treeType = .ok archive := by
  obtain ⟨tables, htables⟩ := exists_encodeTables digest v
  obtain ⟨blobFiles, hblobs⟩ := exists_encodeBlobFiles digest v
  obtain ⟨restrictions, hwritten⟩ :
      ∃ bytes, writeList .unrecoverable encodeRestriction v.restrictions = .ok bytes :=
    writeList_eq_ok.2 ⟨hrestrictions, fun r hr => encodeRestriction_eq_ok.2 (hbounds r hr)⟩
  obtain ⟨frontiers, hfrontiers⟩ :
      ∃ bytes, writeList .unrecoverable encodeFrontier v.blobRestrictions = .ok bytes :=
    writeList_eq_ok.2
      ⟨lt_of_le_of_lt v.blobRestrictions_length_le hblobFiles, fun r _ => ⟨_, rfl⟩⟩
  exact ⟨_, bind_eq_ok.2 ⟨tables, htables, bind_eq_ok.2 ⟨blobFiles, hblobs,
    bind_eq_ok.2 ⟨restrictions, hwritten, bind_eq_ok.2 ⟨frontiers, hfrontiers, rfl⟩⟩⟩⟩⟩

theorem FieldsFit.recover_encodeInto (hfit : v.FieldsFit) (hwf : v.WF v.levels.length)
    (hne : ∀ level ∈ v.levels, ∀ run ∈ level, run ≠ [])
    (h : v.encodeInto digest treeType = .ok archive) :
    archive.recover digest mode v.id = .ok (treeType, v.snapshot) := by
  obtain ⟨tables, htables, h⟩ := bind_eq_ok.1 h
  obtain ⟨blobFiles, hblobFiles, h⟩ := bind_eq_ok.1 h
  obtain ⟨restrictions, hrestrictions, h⟩ := bind_eq_ok.1 h
  obtain ⟨frontiers, hfrontiers, h⟩ := bind_eq_ok.1 h
  cases h
  have hgc : readGcStats mode v.gcStats.encode = .ok v.gcStats := by
    rw [readGcStats, FragmentationMap.decode_encode hfit.blobCounts hfit.gcEntries]
  have hbounds : parseRestrictionsSection restrictions = .ok (IdMap.ofList v.restrictions) :=
    parseIdSection_writeList encodeRestriction_roundTrip (restrictions_distinct hwf) hrestrictions
  have hblobBounds : parseBlobRestrictionsSection frontiers =
      .ok (IdMap.ofList v.blobRestrictions) :=
    parseIdSection_writeList encodeFrontier_roundTrip v.blobRestrictions_distinct hfrontiers
  have hfloor : parseRetentionFloorSection (write v.retentionFloor) = .ok v.retentionFloor := by
    rw [parseRetentionFloorSection, (reads_write v.retentionFloor).run_eq]
  have htype : parseTreeType [treeType.toByte] = .ok treeType := by
    cases treeType <;> rfl
  simp only [Archive.recover, Archive.required, Option.elim_some, bind, Except.bind,
    readTables_encodeTables hfit hne htables, readBlobFiles_encodeBlobFiles hfit hblobFiles, hgc,
    hbounds, hblobBounds, hfloor, htype]
  rfl

theorem fieldsFit_of_recover {id : U64} {r : Recovery}
    (h : archive.recover digest mode id = .ok (treeType, r))
    (hrestrictions : r.toVersion.restrictions.length < 256 ^ 4)
    (hbounds : ∀ b ∈ r.toVersion.restrictions, b.2.length < 256 ^ 4) : r.toVersion.FieldsFit := by
  obtain ⟨_, -, h⟩ := bind_eq_ok.1 h
  obtain ⟨tableIds, htables, h⟩ := bind_eq_ok.1 h
  obtain ⟨_, -, h⟩ := bind_eq_ok.1 h
  obtain ⟨blobFileIds, hblobFiles, h⟩ := bind_eq_ok.1 h
  obtain ⟨_, -, h⟩ := bind_eq_ok.1 h
  obtain ⟨gcStats, hgc, h⟩ := bind_eq_ok.1 h
  obtain ⟨_, -, h⟩ := bind_eq_ok.1 h
  obtain ⟨_, -, h⟩ := bind_eq_ok.1 h
  obtain ⟨_, -, h⟩ := bind_eq_ok.1 h
  obtain ⟨_, -, h⟩ := bind_eq_ok.1 h
  obtain ⟨_, -, h⟩ := bind_eq_ok.1 h
  cases h
  obtain ⟨hlevels, hall⟩ := readTables_bounds htables
  obtain ⟨hentries, hcounts⟩ := readGcStats_bounds hgc
  constructor
  · rw [Recovery.toVersion, length_map]
    exact hlevels
  · intro level hlevel
    obtain ⟨level', hlevel', rfl⟩ := mem_map.1 hlevel
    rw [length_map]
    exact (hall level' hlevel').1
  · intro level hlevel run hrun
    obtain ⟨level', hlevel', rfl⟩ := mem_map.1 hlevel
    obtain ⟨run', hrun', rfl⟩ := mem_map.1 hrun
    rw [length_map]
    exact (hall level' hlevel').2 run' hrun'
  · apply lt_of_le_of_lt (IdMap.ofList_length_le _)
    rw [length_map]
    exact readBlobFiles_bounds hblobFiles
  · exact hentries
  · exact hcounts
  · exact hrestrictions
  · exact hbounds

theorem fieldsFit_of_roundTrip {id : U64} {r : Recovery} {treeType' : TreeType}
    (hwrite : r.toVersion.encodeInto digest treeType = .ok archive)
    (hread : archive.recover digest mode id = .ok (treeType', r)) : r.toVersion.FieldsFit := by
  obtain ⟨_, -, hwrite⟩ := bind_eq_ok.1 hwrite
  obtain ⟨_, -, hwrite⟩ := bind_eq_ok.1 hwrite
  obtain ⟨restrictions, hrestrictions, -⟩ := bind_eq_ok.1 hwrite
  obtain ⟨hlen, hall⟩ := writeList_eq_ok.1 ⟨restrictions, hrestrictions⟩
  exact fieldsFit_of_recover hread hlen fun b hb => encodeRestriction_eq_ok.1 (hall b hb)

/-- A snapshot of a version is read back as that version if and only if every count fits its
field. -/
theorem snapshot_roundTrip_iff (digest : Digest) (mode : ManifestRecoveryMode)
    (treeType : TreeType) (v : TreeVersion) (hids : (v.tables.map (·.desc.id)).Nodup)
    (hne : ∀ level ∈ v.levels, ∀ run ∈ level, run ≠ []) :
    (∃ archive r, v.encodeInto digest treeType = .ok archive ∧
      archive.recover digest mode v.id = .ok (treeType, r) ∧ r.toVersion = v) ↔ v.FieldsFit := by
  constructor
  · rintro ⟨archive, r, hwrite, hread, rfl⟩
    exact fieldsFit_of_roundTrip hwrite hread
  · intro hfit
    obtain ⟨archive, hwrite⟩ :=
      exists_encodeInto digest treeType hfit.blobFiles hfit.restrictions hfit.bounds
    have hwf : v.WF v.levels.length := ⟨rfl, hids, hfit.blobCounts⟩
    exact ⟨archive, v.snapshot, hwrite, hfit.recover_encodeInto hwf hne hwrite,
      (snapshot_holds hwf).toVersion⟩

section Runs

def ofRuns (ids : List U64) (bound : Option Bytes) : TreeVersion where
  id := 1
  levels := [ids.map fun id => [⟨⟨id, 7, 0⟩, bound⟩], []]
  blobFiles := IdMap.ofList [(9, ⟨8, 4⟩)]
  gcStats := IdMap.ofList [(9, ⟨1, 10, 12⟩)]
  retentionFloor := 3

def manyRuns : TreeVersion := ofRuns ((List.finRange 256).map (Fin.castLE (by decide))) none

/-- The count of 256 runs is written as zero. Whatever the digest, no mode reads the version
back. -/
theorem manyRuns_not_recovered : manyRuns.levels.map List.length = [256, 0] ∧
    ∀ (digest : Digest) (treeType : TreeType), ∃ archive,
      manyRuns.encodeInto digest treeType = .ok archive ∧
        ∀ mode r, archive.recover digest mode manyRuns.id = .ok (treeType, r) →
          r.toVersion ≠ manyRuns := by
  refine ⟨by simp [manyRuns, ofRuns], fun digest treeType => ?_⟩
  have hrestrictions : manyRuns.restrictions = [] := by decide +kernel
  obtain ⟨archive, hwrite⟩ : ∃ archive, manyRuns.encodeInto digest treeType = .ok archive := by
    apply exists_encodeInto
    · decide
    · rw [hrestrictions]
      decide
    · rw [hrestrictions]
      exact fun _ hr => nomatch hr
  refine ⟨archive, hwrite, fun mode r hread heq => ?_⟩
  rw [← heq] at hwrite
  have hfit := fieldsFit_of_roundTrip hwrite hread
  rw [heq] at hfit
  have hruns := hfit.runs _ mem_cons_self
  simp at hruns

theorem twoRuns_recovered : ∃ archive r,
    (ofRuns [⟨4, by decide⟩, ⟨5, by decide⟩] (some [7])).encodeInto (fun _ => ⟨0, by decide⟩) .blob =
      .ok archive ∧
    archive.recover (fun _ => ⟨0, by decide⟩) .absoluteConsistency ⟨1, by decide⟩ =
      .ok (.blob, r) ∧ r.toVersion = ofRuns [⟨4, by decide⟩, ⟨5, by decide⟩] (some [7]) :=
  (snapshot_roundTrip_iff (fun _ => ⟨0, by decide⟩) .absoluteConsistency .blob
    (ofRuns [⟨4, by decide⟩, ⟨5, by decide⟩] (some [7])) (by decide) (by decide)).2
    ⟨by decide, by decide, by decide, by decide, by decide, by decide, by decide, by decide⟩

end Runs

end TreeVersion

end LsmTree
