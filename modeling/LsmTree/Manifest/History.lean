import LsmTree.Manifest.SnapshotRoundTrip
import LsmTree.Theory.Transition

/-! The manifest of a tree over its life. Writing a snapshot and pointing `CURRENT` to it is one
step here. -/
namespace LsmTree

open Codec

structure ManifestConfig where
  digest : Digest
  logRotateBytes : ℕ
  levelCount : ℕ

structure ManifestFiles where
  snapshotId : U64
  archive : Archive
  editLog : Bytes

def ManifestFiles.recover (digest : Digest) (mode : ManifestRecoveryMode) (f : ManifestFiles) :
    Except ManifestError Recovery := do
  let (_, recovery) ← f.archive.recover digest mode f.snapshotId
  let edits ← replayEdits digest mode f.editLog
  recovery.applyEdits edits

/-- What is known of the end of the edit log. No code reads this. -/
inductive LogTail where
  /-- The log is a sequence of records and ends in the latest version. -/
  | whole
  /-- The last append stopped inside its record. -/
  | torn
  /-- The last append wrote its record and still failed. -/
  | unacknowledged
  /-- Something was appended to a log of the two kinds before. -/
  | damaged
  deriving DecidableEq, Repr

structure ManifestState where
  /-- The file `v{N}` that `CURRENT` names, and its `N`. -/
  archive : Archive
  snapshotId : U64
  /-- The file `edits-{N}`: what each append left there, the last append first. -/
  editLog : List Bytes
  latest : TreeVersion
  logBytes : Option ℕ
  tail : LogTail
  /-- The last install succeeded, and nothing was written and no tree opened after it. -/
  acknowledged : Bool
  deriving DecidableEq

inductive InstallIo where
  | complete
  /-- An error after the first `n` bytes of the record. -/
  | fails (n : ℕ)
  deriving DecidableEq, Repr

inductive ManifestAction (levelCount : ℕ) where
  | install (next : TreeVersion) (wf : next.WF levelCount)
      (filled : ∀ level ∈ next.levels, ∀ run ∈ level, run ≠ []) (io : InstallIo)
  /-- The crash leaves `keep` bytes of the last record; the tree is opened again in a mode that
  tolerates a torn tail. -/
  | crash (keep : ℕ) (mode : ManifestRecoveryMode) (tolerant : mode ≠ .absoluteConsistency)

namespace ManifestState

variable (cfg : ManifestConfig) (treeType : TreeType)

/-- A tree whose first snapshot has been written. -/
def created (v : TreeVersion) (archive : Archive) : ManifestState where
  archive := archive
  snapshotId := v.id
  editLog := []
  latest := v
  logBytes := none
  tail := .whole
  acknowledged := false

def logFile (m : ManifestState) : Bytes := m.editLog.reverse.flatten

def recover (m : ManifestState) (mode : ManifestRecoveryMode) :
    Except ManifestError TreeVersion := do
  let recovery ← ManifestFiles.recover cfg.digest mode ⟨m.snapshotId, m.archive, m.logFile⟩
  return recovery.toVersion

def logSize (m : ManifestState) : ℕ := m.logBytes.getD m.logFile.length

/-- The log after an append that ended inside the record, or right after it. -/
def failedAppend (m : ManifestState) (record : Bytes) (n : ℕ) : ManifestState :=
  if n = 0 then { m with logBytes := none }
  else { m with
    editLog := record.take n :: m.editLog
    logBytes := none
    tail := if m.tail ≠ .whole then .damaged
      else if n < record.length then .torn else .unacknowledged
    acknowledged := false }

def appended (m : ManifestState) (record : Bytes) (next : TreeVersion) : ManifestState :=
  { m with
    editLog := record :: m.editLog
    latest := next
    logBytes := some (m.logSize + record.length)
    tail := if m.tail = .whole then .whole else .damaged
    acknowledged := true }

def rotated (m : ManifestState) (next : TreeVersion) (archive : Archive) : ManifestState :=
  { m with
    archive := archive
    snapshotId := next.id
    editLog := []
    latest := next
    logBytes := some 0
    tail := .whole
    acknowledged := true }

def rotate (m : ManifestState) (next : TreeVersion) : InstallIo → ManifestState
  | .complete =>
    match next.encodeInto cfg.digest treeType with
    | .ok archive => m.rotated next archive
    | .error _ => { m with logBytes := some m.logSize }
  | .fails _ => { m with logBytes := some m.logSize }

/-- `persist_change`, and `append_version` where it succeeds. -/
def persistChange (m : ManifestState) (next : TreeVersion) (io : InstallIo) : ManifestState :=
  if m.logSize < cfg.logRotateBytes then
    match next.diff m.latest with
    | .error _ => { m with logBytes := some m.logSize }
    | .ok edit =>
      match edit.record cfg.digest, io with
      -- a payload that cannot be encoded or framed is refused before the first byte
      | .error _, _ => { m with logBytes := none }
      | .ok record, .complete => m.appended record next
      | .ok record, .fails n => m.failedAppend record n
  else m.rotate cfg treeType next io

def cutLog (m : ManifestState) (keep : ℕ) : List Bytes :=
  match m.editLog with
  | [] => []
  | last :: rest => if keep = 0 then rest else last.take keep :: rest

def cutTail (m : ManifestState) (keep : ℕ) : LogTail :=
  match m.tail, m.editLog with
  | .damaged, _ => .damaged
  | .torn, _ => if keep = 0 then .whole else .torn
  | _, [] => .whole
  | _, last :: _ => if keep = 0 ∨ last.length ≤ keep then .whole else .torn

def cut (m : ManifestState) (keep : ℕ) : ManifestState :=
  { m with editLog := m.cutLog keep, tail := m.cutTail keep }

/-- `none` where the tree does not open. The log is left as it is found. -/
def reopen (m : ManifestState) (mode : ManifestRecoveryMode) : Option ManifestState :=
  match m.recover cfg mode with
  | .ok v => some { m with latest := v, logBytes := none, acknowledged := false }
  | .error _ => none

def step (m : ManifestState) : ManifestAction cfg.levelCount → Option ManifestState
  | .install next _ _ io => some (m.persistChange cfg treeType next io)
  | .crash keep mode _ => (m.cut keep).reopen cfg mode

/-- An install that goes to the log finds a log that ends in the latest version, and one that goes to
a snapshot has counts that fit its fields. -/
def Clean (m : ManifestState) : ManifestAction cfg.levelCount → Prop
  | .install next _ _ .complete =>
    if m.logSize < cfg.logRotateBytes then m.tail = .whole else next.FieldsFit
  | _ => True

end ManifestState

end LsmTree
