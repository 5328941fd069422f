import LsmTree.Manifest.Version

/-! The full snapshot of a version: the sections of the manifest file and how recovery reads them.
-/
namespace LsmTree

open Codec

inductive TreeType where
  | standard
  | blob
  deriving DecidableEq, Repr

def TreeType.toByte : TreeType → Fin 256
  | .standard => 0
  | .blob => 1

def TreeType.ofByte (byte : Fin 256) : Except ManifestError TreeType :=
  if byte = 0 then .ok .standard
  else if byte = 1 then .ok .blob
  else .error (.invalidHeader "TreeType")

/-- The sections of a manifest file that recovery reads; a file may lack any of them. -/
structure Archive where
  treeType : Option Bytes
  tables : Option Bytes
  blobFiles : Option Bytes
  blobGcStats : Option Bytes
  restrictions : Option Bytes
  blobRestrictions : Option Bytes
  retentionFloor : Option Bytes
  deriving DecidableEq

section Encode

variable (digest : Digest)

def encodeTableRecord (t : TableHandle) : Except ManifestError Bytes := do
  let payload ← encodeTableDesc t.desc
  writeFramedRecord digest payload

def encodeRun (run : List TableHandle) : Except ManifestError Bytes := do
  let records ← writeAll (encodeTableRecord digest) run
  return encodeLe 4 run.length ++ records

def encodeLevel (level : List (List TableHandle)) : Except ManifestError Bytes := do
  let runs ← writeAll (encodeRun digest) level
  return encodeLe 1 level.length ++ runs

def encodeBlobRecord (x : U64 × BlobFileHandle) : Except ManifestError Bytes := do
  let payload ← encodeAddedBlobFile ⟨x.1, x.2.checksum⟩
  writeFramedRecord digest payload

namespace TreeVersion

def encodeTables (v : TreeVersion) : Except ManifestError Bytes := do
  let levels ← writeAll (encodeLevel digest) v.levels
  return encodeLe 1 v.levels.length ++ levels

def encodeBlobFiles (v : TreeVersion) : Except ManifestError Bytes := do
  let records ← writeAll (encodeBlobRecord digest) v.blobFiles.entries
  return encodeLe 4 v.blobFiles.entries.length ++ records

/-- Only the restrictions check that their counts fit. -/
def encodeInto (treeType : TreeType) (v : TreeVersion) : Except ManifestError Archive := do
  let tables ← v.encodeTables digest
  let blobFiles ← v.encodeBlobFiles digest
  let restrictions ← writeList .unrecoverable encodeRestriction v.restrictions
  let blobRestrictions ← writeList .unrecoverable encodeFrontier v.blobRestrictions
  return {
    treeType := some [treeType.toByte]
    tables := some tables
    blobFiles := some blobFiles
    blobGcStats := some v.gcStats.encode
    restrictions := some restrictions
    blobRestrictions := some blobRestrictions
    retentionFloor := some (write v.retentionFloor) }

end TreeVersion

end Encode

namespace ManifestRecoveryMode

def toleratesTail (mode : ManifestRecoveryMode) : Bool := decide (mode ≠ .absoluteConsistency)

def pitPrefix (mode : ManifestRecoveryMode) : Bool := decide (mode = .pointInTimeRecovery)

def skipsAny (mode : ManifestRecoveryMode) : Bool := decide (mode = .skipAnyCorruptedRecords)

end ManifestRecoveryMode

section Records

/-- A section of framed records of one length. -/
structure RecordSection (α : Type) where
  name : String
  payloadLen : ℕ
  read : Reader α

variable {α : Type}

/-- The only part of a payload of the right length that can be wrong is its checksum type. -/
def RecordSection.decode (s : RecordSection α) (payload : Bytes) : Except ManifestError α :=
  if payload.length ≠ s.payloadLen then
    .error (.invalidHeader (s.name ++ " record payload length"))
  else match s.read.run payload with
    | some (a, _) => .ok a
    | none => .error (.invalidTag "ChecksumType" (payload.getD 8 0))

def tablesSection : RecordSection TableDesc := ⟨"tables", 33, readTableDesc⟩

def blobFilesSection : RecordSection AddedBlobFile := ⟨"blob_files", 25, readAddedBlobFile⟩

def RecordSection.framedLen (s : RecordSection α) : ℕ := frameHeaderLen + s.payloadLen

variable (digest : Digest)

/-- `n` records, and the bytes after them: `none` where the mode keeps the records read so far and
gives up the rest of the section. -/
def readRecords (s : RecordSection α) (mode : ManifestRecoveryMode) :
    ℕ → Bytes → Except ManifestError (List α × Option Bytes)
  | 0, bytes => .ok ([], some bytes)
  | n + 1, bytes =>
    match readFramedRecord digest bytes.length (some s.payloadLen) bytes with
    | .ok payload rest =>
      match s.decode payload with
      | .ok a => do
        let (as, rest) ← readRecords s mode n rest
        return (a :: as, rest)
      | .error e =>
        if mode.skipsAny then readRecords s mode n rest
        else if mode.pitPrefix then .ok ([], none)
        else .error e
    | .tailTruncation => if mode.toleratesTail then .ok ([], none) else .error .io
    | .checksumMismatch bytesConsumed expected got =>
      if mode.skipsAny then readRecords s mode n (bytes.drop bytesConsumed)
      else if mode.pitPrefix then .ok ([], none)
      else .error (.frameChecksumMismatch s.name expected got)
    | .badHeader =>
      if mode.skipsAny || mode.pitPrefix then .ok ([], none)
      else .error (.invalidHeader ("manifest " ++ s.name ++ " frame header"))
    -- the length contradicts the format, whatever the mode
    | .lenMismatch .. =>
      .error (.invalidHeader ("manifest " ++ s.name ++ " frame len mismatch"))

end Records

section Recover

variable (digest : Digest) (mode : ManifestRecoveryMode)

/-- An empty run is dropped: there are no empty runs in a version. -/
def pushRun (run : List TableDesc) (runs : List (List TableDesc)) : List (List TableDesc) :=
  if run.isEmpty then runs else run :: runs

def readRuns : ℕ → Bytes → Except ManifestError (List (List TableDesc) × Option Bytes)
  | 0, bytes => .ok ([], some bytes)
  | n + 1, bytes =>
    match (read 4).run bytes with
    | none => if mode.toleratesTail then .ok ([], none) else .error .io
    | some (tableCount, bytes) =>
      if bytes.length < tableCount * tablesSection.framedLen ∧ mode.toleratesTail = false then
        .error .unrecoverable
      else do
        let (run, rest) ← readRecords digest tablesSection mode tableCount bytes
        match rest with
        | none => return (pushRun run [], none)
        | some rest => do
          let (runs, rest) ← readRuns n rest
          return (pushRun run runs, rest)

/-- Where the section ends early the levels that were not read stay, empty. -/
def readLevels : ℕ → Bytes → Except ManifestError (List (List (List TableDesc)))
  | 0, _ => .ok []
  | n + 1, bytes =>
    match (read 1).run bytes with
    | none => if mode.toleratesTail then .ok (List.replicate (n + 1) []) else .error .io
    | some (runCount, bytes) => do
      let (runs, rest) ← readRuns digest mode runCount bytes
      match rest with
      | none => return runs :: List.replicate n []
      | some rest => do
        let levels ← readLevels n rest
        return runs :: levels

def readTables (bytes : Bytes) : Except ManifestError (List (List (List TableDesc))) :=
  match (read 1).run bytes with
  | none => if mode.toleratesTail then .ok [] else .error .io
  | some (levelCount, bytes) => readLevels digest mode levelCount bytes

def readBlobFiles (bytes : Bytes) : Except ManifestError (List (U64 × U128)) :=
  match (read 4).run bytes with
  | none => if mode.toleratesTail then .ok [] else .error .io
  | some (count, rest) =>
    if (bytes.length - 4) / blobFilesSection.framedLen < count ∧ mode.toleratesTail = false then
      .error .unrecoverable
    else do
      let (files, _) ← readRecords digest blobFilesSection mode count rest
      return (files.map fun b => (b.id, b.checksum)).insertionSort fun x y => x.1 ≤ y.1

def readGcStats (bytes : Bytes) : Except ManifestError FragmentationMap :=
  match FragmentationMap.decode bytes with
  | .error .io => if mode.toleratesTail then .ok IdMap.empty else .error .io
  | result => result

/-- The sections that clamp reads are read strictly: every byte, and no id twice. -/
def parseIdSection {α : Type} (name : String) (entry : Reader (U64 × α)) (bytes : Bytes) :
    Except ManifestError (IdMap U64 α) :=
  match (readList entry).run bytes with
  | some (entries, []) =>
    if (entries.map (·.1)).Nodup then .ok (IdMap.ofList entries) else .error (.invalidHeader name)
  | _ => .error (.invalidHeader name)

def parseRestrictionsSection : Bytes → Except ManifestError (IdMap U64 Bytes) :=
  parseIdSection "restrictions section" readRestriction

def parseBlobRestrictionsSection : Bytes → Except ManifestError (IdMap U64 U64) :=
  parseIdSection "blob_restrictions section" readFrontier

def parseRetentionFloorSection (bytes : Bytes) : Except ManifestError U64 :=
  match (read 8).run bytes with
  | some (floor, []) => .ok floor
  | _ => .error (.invalidHeader "retention_floor section")

def parseTreeType (bytes : Bytes) : Except ManifestError TreeType :=
  match bytes with
  | [] => .error (.invalidHeader "TreeType")
  | byte :: _ => TreeType.ofByte byte

def Archive.required (bytes : Option Bytes) : Except ManifestError Bytes :=
  bytes.elim (.error .unrecoverable) .ok

/-- `recover` up to the edit log, for the snapshot that `CURRENT` names by its id. -/
def Archive.recover (archive : Archive) (currVersionId : U64) :
    Except ManifestError (TreeType × Recovery) := do
  let tables ← required archive.tables
  let tableIds ← readTables digest mode tables
  let blobFiles ← required archive.blobFiles
  let blobFileIds ← readBlobFiles digest mode blobFiles
  let blobGcStats ← required archive.blobGcStats
  let gcStats ← readGcStats mode blobGcStats
  let restrictions ← archive.restrictions.elim (.ok IdMap.empty) parseRestrictionsSection
  let blobRestrictions ←
    archive.blobRestrictions.elim (.ok IdMap.empty) parseBlobRestrictionsSection
  let retentionFloor ←
    archive.retentionFloor.elim (.ok 0) parseRetentionFloorSection
  let treeTypeBytes ← required archive.treeType
  let treeType ← parseTreeType treeTypeBytes
  return (treeType, ⟨currVersionId, tableIds, blobFileIds, gcStats, restrictions,
    blobRestrictions, retentionFloor⟩)

end Recover

end LsmTree
