import LsmTree.Manifest.Edit
import LsmTree.Theory.IdMap

/-! What the manifest keeps of a version. The code iterates hash maps; here their entries are in the
order of the ids. -/
namespace LsmTree

open Codec

structure TableHandle where
  desc : TableDesc
  restrictLowerBound : Option Bytes
  deriving DecidableEq, Repr

structure BlobFileHandle where
  checksum : U128
  liveDataStart : U64
  deriving DecidableEq, Repr

structure FragmentationEntry where
  len : U64
  bytes : U64
  onDiskBytes : U64
  deriving DecidableEq, Repr

abbrev FragmentationMap := IdMap U64 FragmentationEntry

namespace FragmentationMap

def encodeEntry (x : U64 × FragmentationEntry) : Bytes :=
  write x.1 ++ (encodeLe 4 x.2.len ++ (write x.2.bytes ++ write x.2.onDiskBytes))

def encode (m : FragmentationMap) : Bytes :=
  encodeLe 4 m.entries.length ++ m.entries.flatMap encodeEntry

def readEntry : Reader (U64 × FragmentationEntry) := do
  let id ← read 8
  let len ← read 4
  let bytes ← read 8
  let onDiskBytes ← read 8
  return (id, ⟨len.castLE (by decide), bytes, onDiskBytes⟩)

def decode (bytes : Bytes) : Except ManifestError FragmentationMap :=
  match (readList readEntry).run bytes with
  | some (entries, _) => .ok (IdMap.ofList entries)
  | none => .error .io

end FragmentationMap

/-- The manifest's view of a version. -/
structure TreeVersion where
  id : U64
  levels : List (List (List TableHandle))
  blobFiles : IdMap U64 BlobFileHandle
  gcStats : FragmentationMap
  retentionFloor : U64
  deriving DecidableEq

def FragmentationMap.CountsFit (m : FragmentationMap) : Prop :=
  ∀ x ∈ m.entries, x.2.len.val < 256 ^ 4

instance (m : FragmentationMap) : Decidable m.CountsFit :=
  inferInstanceAs (Decidable (∀ x ∈ m.entries, x.2.len.val < 256 ^ 4))

/-- A version of `levelCount` levels, no two tables of one id. -/
structure TreeVersion.WF (levelCount : ℕ) (v : TreeVersion) : Prop where
  levelCount : v.levels.length = levelCount
  distinctIds : (v.levels.flatten.flatten.map (·.desc.id)).Nodup
  countsFit : v.gcStats.CountsFit

structure Recovery where
  currVersionId : U64
  tableIds : List (List (List TableDesc))
  blobFileIds : List (U64 × U128)
  gcStats : FragmentationMap
  restrictions : IdMap U64 Bytes
  blobRestrictions : IdMap U64 U64
  retentionFloor : U64
  deriving DecidableEq

namespace TreeVersion

def tables (v : TreeVersion) : List TableHandle := v.levels.flatten.flatten

def layout (runs : List (List TableHandle)) : List (List TableDesc) :=
  runs.map fun run => run.map (·.desc)

/-- `level_runs`; a level past the end is empty -/
def levelRuns (v : TreeVersion) (i : ℕ) : List (List TableDesc) := layout ((v.levels[i]?).getD [])

def restrictions (v : TreeVersion) : List (U64 × Bytes) :=
  v.tables.filterMap fun t => t.restrictLowerBound.map fun bound => (t.desc.id, bound)

def blobRestrictions (v : TreeVersion) : List (U64 × U64) :=
  (v.blobFiles.entries.filter fun x => decide (0 < x.2.liveDataStart.val)).map
    fun x => (x.1, x.2.liveDataStart)

def changedLevels (v prior : TreeVersion) : List ℕ :=
  (List.range (max v.levels.length prior.levels.length)).filter
    fun i => decide (v.levelRuns i ≠ prior.levelRuns i)

def diff (v prior : TreeVersion) : Except ManifestError VersionEdit :=
  -- levels are numbered by one byte
  if (v.changedLevels prior).any fun i => decide (256 ≤ i) then .error .unrecoverable
  else .ok {
    newVersionId := v.id
    changedLevels := (v.changedLevels prior).map fun i =>
      ⟨Fin.ofNat 256 i, v.levelRuns i⟩
    addedBlobFiles := (v.blobFiles.entries.filter fun x =>
      decide ((prior.blobFiles.get x.1).map (·.checksum) ≠ some x.2.checksum)).map
        fun x => ⟨x.1, x.2.checksum⟩
    removedBlobFileIds := (prior.blobFiles.entries.filter fun x =>
      (v.blobFiles.get x.1).isNone).map (·.1)
    gcStats := if v.gcStats = prior.gcStats then none else some (FragmentationMap.encode v.gcStats)
    restrictions := v.restrictions
    blobRestrictions := v.blobRestrictions
    retentionFloor := if v.retentionFloor = prior.retentionFloor then none
      else some v.retentionFloor }

def snapshot (v : TreeVersion) : Recovery where
  currVersionId := v.id
  tableIds := v.levels.map layout
  blobFileIds := v.blobFiles.entries.map fun x => (x.1, x.2.checksum)
  gcStats := v.gcStats
  restrictions := IdMap.ofList v.restrictions
  blobRestrictions := IdMap.ofList v.blobRestrictions
  retentionFloor := v.retentionFloor

end TreeVersion

namespace Recovery

/-- A changed level replaces the layout at its index, which may lie past the end. -/
def setLevel (tableIds : List (List (List TableDesc))) (cl : ChangedLevel) :
    List (List (List TableDesc)) :=
  (tableIds ++ List.replicate (cl.level.val + 1 - tableIds.length) []).set cl.level.val cl.runs

def putBlobFile (id : U64) (checksum : U128) : List (U64 × U128) → List (U64 × U128)
  | [] => [(id, checksum)]
  | x :: xs => if x.1 = id then (id, checksum) :: xs else x :: putBlobFile id checksum xs

def applyEdit (r : Recovery) (e : VersionEdit) : Except ManifestError Recovery := do
  let gcStats ← (e.gcStats.map FragmentationMap.decode).getD (.ok r.gcStats)
  return {
    currVersionId := e.newVersionId
    tableIds := e.changedLevels.foldl setLevel r.tableIds
    blobFileIds := e.addedBlobFiles.foldl (fun l b => putBlobFile b.id b.checksum l)
      (r.blobFileIds.filter fun x => decide (x.1 ∉ e.removedBlobFileIds))
    gcStats := gcStats
    restrictions := IdMap.ofList e.restrictions
    blobRestrictions := IdMap.ofList e.blobRestrictions
    retentionFloor := e.retentionFloor.getD r.retentionFloor }

def applyEdits (r : Recovery) (es : List VersionEdit) : Except ManifestError Recovery :=
  es.foldlM applyEdit r

/-- `from_recovery`: the bounds and frontiers are found by id. -/
def toVersion (r : Recovery) : TreeVersion where
  id := r.currVersionId
  levels := r.tableIds.map fun level => level.map fun run => run.map
    fun desc => ⟨desc, r.restrictions.get desc.id⟩
  blobFiles := IdMap.ofList (r.blobFileIds.map
    fun x => (x.1, ⟨x.2, (r.blobRestrictions.get x.1).getD 0⟩))
  gcStats := r.gcStats
  retentionFloor := r.retentionFloor

end Recovery

section GcStats

theorem FragmentationMap.encode_length (m : FragmentationMap) :
    (encode m).length = 4 + 28 * m.entries.length := by
  have hentries : ∀ l : List (U64 × FragmentationEntry),
      (l.flatMap encodeEntry).length = 28 * l.length := by
    intro l
    induction l with
    | nil => rfl
    | cons x xs ih =>
      simp only [List.flatMap_cons, List.length_append, ih, encodeEntry, write_length,
        encodeLe_length, List.length_cons]
      omega
  rw [encode, List.length_append, encodeLe_length, hentries]

theorem FragmentationMap.reads_encodeEntry {x : U64 × FragmentationEntry}
    (h : x.2.len.val < 256 ^ 4) : Reads readEntry (encodeEntry x) x := by
  have hlen := reads_write (n := 4) ⟨x.2.len, h⟩
  exact (reads_write x.1).bind (hlen.bind ((reads_write x.2.bytes).bind
    (reads_write x.2.onDiskBytes).map))

theorem FragmentationMap.decode_encode {m : FragmentationMap} (hfit : m.CountsFit)
    (hcount : m.entries.length < 256 ^ 4) : decode (encode m) = .ok m := by
  have hentries := reads_flatMap fun x hx => reads_encodeEntry (hfit x hx)
  have hread := ((reads_write (n := 4) ⟨m.entries.length, hcount⟩).bind
    (f := fun count => repeatRead readEntry count.val) hentries).run_eq
  rw [decode, readList]
  change (match (do let count ← read 4; repeatRead readEntry count.val).run
    (write (⟨m.entries.length, hcount⟩ : Fin (256 ^ 4)) ++ m.entries.flatMap encodeEntry) with
    | some (entries, _) => _ | none => _) = _
  rw [hread]
  exact congrArg _ (IdMap.ofList_entries m)

end GcStats

end LsmTree
