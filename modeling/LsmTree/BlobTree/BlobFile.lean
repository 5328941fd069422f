import LsmTree.Key
import LsmTree.Theory.Codec
import LsmTree.Theory.SortedSearch

/-! Blob files and the handles into them. -/
namespace LsmTree

open Codec RawKey List Option

structure ValueHandle where
  blobFileId : ℕ
  offset : ℕ
  onDiskSize : ℕ
  deriving DecidableEq, Repr

structure BlobIndirection where
  vhandle : ValueHandle
  size : ℕ
  deriving DecidableEq, Repr

def ValueHandle.encode (h : ValueHandle) : Bytes :=
  writeVarint h.offset ++ (writeVarint h.blobFileId ++ writeVarint h.onDiskSize)

def ValueHandle.read : Reader ValueHandle := do
  let offset ← readVarint
  let blobFileId ← readVarint
  let onDiskSize ← readVarint
  return ⟨blobFileId, offset, onDiskSize⟩

namespace BlobIndirection

def encode (i : BlobIndirection) : Bytes := i.vhandle.encode ++ writeVarint i.size

def read : Reader BlobIndirection := do
  let vhandle ← ValueHandle.read
  let size ← readVarint
  return ⟨vhandle, size⟩

def decode (bytes : Bytes) : Option BlobIndirection := (read.run bytes).map (·.1)

theorem decode_encode (i : BlobIndirection) : decode i.encode = some i := by
  have hhandle : Reads ValueHandle.read i.vhandle.encode i.vhandle :=
    (reads_varint _).bind ((reads_varint _).bind (reads_varint _).map)
  have hread : Reads read i.encode i := hhandle.bind (reads_varint _).map
  rw [decode, hread.run_eq, map_some]

end BlobIndirection

/-- A compression method. A reader gives it the length it found in the frame's header. -/
structure Compression where
  compress : Bytes → Bytes
  decompress : ℕ → Bytes → Option Bytes
  decompress_compress : ∀ v, decompress v.length (compress v) = some v

def Compression.none : Compression where
  compress := id
  decompress len v := if len = v.length then some v else .none
  decompress_compress _ := if_pos rfl

def blobHeaderLen : ℕ := 42

def maxDecompressionSize : ℕ := 256 * 1024 * 1024

/-- A record of a blob file, within the limits that `write_raw` asserts and checks. -/
structure Frame (K : Type*) [RawKey K] where
  key : K
  seqno : ℕ
  uncompressedLen : ℕ
  /-- as stored, compressed -/
  value : Bytes
  key_pos : 0 < (toBytes key).length
  key_le : (toBytes key).length ≤ maxKeyLength
  len_le : uncompressedLen ≤ maxDecompressionSize
  value_le : value.length ≤ maxDecompressionSize

structure ScanEntry (K : Type*) [RawKey K] extends Frame K where
  offset : ℕ
  frameEnd : ℕ

variable {K : Type*} [RawKey K]

def Frame.size (f : Frame K) : ℕ := blobHeaderLen + (toBytes f.key).length + f.value.length

theorem Frame.size_pos (f : Frame K) : 0 < f.size := by
  have := f.key_pos
  unfold Frame.size
  omega

/-- The frames with the places where they start and end. -/
def scanFrom : ℕ → List (Frame K) → List (ScanEntry K)
  | _, [] => []
  | offset, f :: fs => ⟨f, offset, offset + f.size⟩ :: scanFrom (offset + f.size) fs

def framesLen (fs : List (Frame K)) : ℕ := (fs.map Frame.size).sum

theorem scanFrom_append (offset : ℕ) (fs gs : List (Frame K)) :
    scanFrom offset (fs ++ gs) = scanFrom offset fs ++ scanFrom (offset + framesLen fs) gs := by
  induction fs generalizing offset with
  | nil => simp [scanFrom, framesLen]
  | cons f fs ih => simp [scanFrom, ih, framesLen, Nat.add_assoc]

theorem offset_of_mem_scanFrom {offset : ℕ} {fs : List (Frame K)} {e : ScanEntry K}
    (h : e ∈ scanFrom offset fs) :
    offset ≤ e.offset ∧ e.offset < offset + framesLen fs := by
  induction fs generalizing offset with
  | nil => cases h
  | cons f fs ih =>
    have hpos := f.size_pos
    rcases mem_cons.1 h with rfl | h
    · simp [framesLen]
      omega
    · have := ih h
      simp only [framesLen, map_cons, sum_cons] at this ⊢
      omega

theorem scanFrom_offsets (offset : ℕ) (fs : List (Frame K)) :
    (scanFrom offset fs).Pairwise fun a b => a.offset < b.offset := by
  induction fs generalizing offset with
  | nil => exact List.Pairwise.nil
  | cons f fs ih =>
    refine pairwise_cons.2 ⟨fun e he => ?_, ih _⟩
    have hpos := f.size_pos
    have := (offset_of_mem_scanFrom he).1
    simp only
    omega

structure BlobFile (K : Type*) [RawKey K] where
  id : ℕ
  /-- the codec its metadata records -/
  compression : Compression
  frames : List (Frame K)

namespace BlobFile

def scan (f : BlobFile K) : List (ScanEntry K) := scanFrom 0 f.frames

variable [DecidableEq K]

/-- `Reader::get`: the record at the handle's offset, if it is one of this key and size. -/
def get (f : BlobFile K) (key : K) (h : ValueHandle) : Option Bytes :=
  (f.scan.find? fun e => decide (e.offset = h.offset)).bind fun e =>
    if e.key = key ∧ e.value.length = h.onDiskSize then
      f.compression.decompress e.uncompressedLen e.value
    else none

omit [DecidableEq K] in
theorem scan_offsets_nodup (f : BlobFile K) : (f.scan.map (·.offset)).Nodup := by
  have hlt := pairwise_map.2 (scanFrom_offsets 0 f.frames)
  exact hlt.imp fun h => Nat.ne_of_lt h

theorem get_of_mem {f : BlobFile K} {e : ScanEntry K} {h : ValueHandle} (he : e ∈ f.scan)
    (ho : e.offset = h.offset) (hs : e.value.length = h.onDiskSize) :
    f.get e.key h = f.compression.decompress e.uncompressedLen e.value := by
  have hfind := SortedSearch.find?_key f.scan_offsets_nodup he
  rw [ho] at hfind
  simp [get, hfind, hs]

end BlobFile

/-- `Accessor::get` -/
def readBlob [DecidableEq K] (files : List (BlobFile K)) (key : K) (h : ValueHandle) :
    Option Bytes :=
  (files.find? fun f => decide (f.id = h.blobFileId)).bind fun f => f.get key h

theorem readBlob_of_mem [DecidableEq K] {files : List (BlobFile K)} {f : BlobFile K} {key : K}
    {h : ValueHandle} (hids : (files.map (·.id)).Nodup) (hf : f ∈ files)
    (hid : f.id = h.blobFileId) : readBlob files key h = f.get key h := by
  have hfind := SortedSearch.find?_key hids hf
  rw [hid] at hfind
  rw [readBlob, hfind, bind_some]

/-- The handle points to the frame, in a file that records the codec. -/
structure Holds (files : List (BlobFile K)) (c : Compression) (h : ValueHandle) (f : Frame K) :
    Prop where
  size : f.value.length = h.onDiskSize
  file : ∃ file ∈ files, file.id = h.blobFileId ∧ file.compression = c ∧
    ∃ e ∈ file.scan, e.toFrame = f ∧ e.offset = h.offset

section Holds

variable [DecidableEq K] {files : List (BlobFile K)} {c : Compression} {h : ValueHandle} {f : Frame K}

theorem Holds.read (hids : (files.map (·.id)).Nodup) (hf : Holds files c h f) :
    readBlob files f.key h = c.decompress f.uncompressedLen f.value := by
  obtain ⟨file, hfile, hid, rfl, e, he, rfl, ho⟩ := hf.file
  rw [readBlob_of_mem hids hfile hid, BlobFile.get_of_mem he ho hf.size]

theorem holds_of_read {key : K} {v : Bytes} (hv : readBlob files key h = some v) :
    ∃ c f, Holds files c h f ∧ f.key = key ∧ c.decompress f.uncompressedLen f.value = some v := by
  obtain ⟨file, hfind, hget⟩ := bind_eq_some_iff.1 hv
  obtain ⟨e, hentry, hread⟩ := bind_eq_some_iff.1 hget
  have hid : file.id = h.blobFileId := by simpa using find?_some hfind
  have ho : e.offset = h.offset := by simpa using find?_some hentry
  split_ifs at hread with hmatch
  exact ⟨file.compression, e.toFrame, ⟨hmatch.2, file, mem_of_find?_eq_some hfind, hid, rfl, e,
    mem_of_find?_eq_some hentry, rfl, ho⟩, hmatch.1, hread⟩

end Holds

inductive BlobError where
  /-- an `assert!` of `write_raw` -/
  | assertion
  | decompressedSizeTooLarge (declared : ℕ)
  deriving DecidableEq, Repr

/-- `BlobFileWriter`, the multi writer; the codec it records may differ from the one it compresses
with. -/
structure BlobFileWriter (K : Type*) [RawKey K] where
  targetSize : ℕ
  compression : Compression
  recorded : Compression
  fileIds : ℕ → ℕ
  rotations : ℕ
  frames : List (Frame K)
  results : List (BlobFile K)
  fileIds_injective : Function.Injective fileIds
  results_ids : results.map (·.id) = (List.range rotations).map fileIds

namespace BlobFileWriter

def new (targetSize : ℕ) (compression recorded : Compression) (fileIds : ℕ → ℕ)
    (hids : Function.Injective fileIds) : BlobFileWriter K :=
  ⟨targetSize, compression, recorded, fileIds, 0, [], [], hids, rfl⟩

variable (w : BlobFileWriter K)

def active : BlobFile K := ⟨w.fileIds w.rotations, w.recorded, w.frames⟩

def offset : ℕ := framesLen w.frames

def push (f : Frame K) : BlobFileWriter K := { w with frames := w.frames ++ [f] }

def rotate : BlobFileWriter K :=
  { w with
    rotations := w.rotations + 1
    frames := []
    results := w.results ++ [w.active]
    results_ids := by simp [range_succ, w.results_ids, active] }

/-- A file without frames is deleted again. -/
def finish : List (BlobFile K) := if w.frames = [] then w.results else w.results ++ [w.active]

/-- The frame goes in, and a file that has reached its target size is closed. -/
def append (f : Frame K) : ValueHandle × BlobFileWriter K :=
  let w' := w.push f
  (⟨w.fileIds w.rotations, w.offset, f.value.length⟩,
    if w.targetSize ≤ w'.offset then w'.rotate else w')

def writeRaw (key : K) (seqno : ℕ) (value : Bytes) (uncompressedLen : ℕ) :
    Except BlobError (ValueHandle × BlobFileWriter K) :=
  if hkey : 0 < (toBytes key).length ∧ (toBytes key).length ≤ maxKeyLength ∧ value.length < 2 ^ 32 then
    if hlen : uncompressedLen ≤ maxDecompressionSize then
      if value.length ≤ maxDecompressionSize then
        if hdisk : (w.compression.compress value).length ≤ maxDecompressionSize then
          .ok (w.append
            ⟨key, seqno, uncompressedLen, w.compression.compress value, hkey.1, hkey.2.1, hlen, hdisk⟩)
        else .error (.decompressedSizeTooLarge (w.compression.compress value).length)
      else .error (.decompressedSizeTooLarge value.length)
    else .error (.decompressedSizeTooLarge uncompressedLen)
  else .error .assertion

def write (key : K) (seqno : ℕ) (value : Bytes) : Except BlobError (ValueHandle × BlobFileWriter K) :=
  w.writeRaw key seqno value (value.length % 2 ^ 32)

variable {w}

theorem writeRaw_ok {key : K} {seqno : ℕ} {value : Bytes} {len : ℕ} {r : ValueHandle × BlobFileWriter K}
    (h : w.writeRaw key seqno value len = .ok r) :
    value.length ≤ maxDecompressionSize ∧ ∃ f : Frame K, f.key = key ∧ f.seqno = seqno ∧
      f.uncompressedLen = len ∧ f.value = w.compression.compress value ∧ w.append f = r := by
  unfold writeRaw at h
  split_ifs at h with hkey hlen hvalue hdisk
  exact ⟨hvalue, _, rfl, rfl, rfl, rfl, Except.ok.inj h⟩

theorem finish_ids_nodup : (w.finish.map (·.id)).Nodup := by
  have hall : ((w.results ++ [w.active]).map (·.id)).Nodup := by
    rw [map_append, w.results_ids, map_singleton]
    have hrange : (List.range w.rotations).map w.fileIds ++ [w.active.id] =
        (List.range (w.rotations + 1)).map w.fileIds := by
      rw [range_succ, map_append]
      rfl
    rw [hrange]
    exact nodup_range.map w.fileIds_injective
  unfold finish
  split_ifs
  · exact hall.sublist ((sublist_append_left _ _).map _)
  · exact hall

theorem append_finish (f : Frame K) : (w.append f).2.finish = w.results ++ [(w.push f).active] := by
  have hne : w.frames ++ [f] ≠ [] := by simp
  unfold append
  dsimp only
  split_ifs
  · simp [rotate, finish, push]
  · exact if_neg hne

theorem append_holds (f : Frame K) : Holds (w.append f).2.finish w.recorded (w.append f).1 f := by
  have hentry : (⟨f, w.offset, w.offset + f.size⟩ : ScanEntry K) ∈ (w.push f).active.scan := by
    simp [BlobFile.scan, active, push, scanFrom_append, scanFrom, offset]
  exact ⟨rfl, (w.push f).active, by simp [append_finish], rfl, rfl, _, hentry, rfl, rfl⟩

theorem append_keeps (f : Frame K) {c : Compression} {h : ValueHandle} {g : Frame K}
    (hg : Holds w.finish c h g) : Holds (w.append f).2.finish c h g := by
  obtain ⟨hsize, file, hmem, hid, hcodec, e, he, hframe, ho⟩ := hg
  have hfile : file ∈ w.results ∨ file = w.active := by
    unfold finish at hmem
    split_ifs at hmem
    · exact Or.inl hmem
    · simpa using hmem
  rcases hfile with hfile | rfl
  · have hmem' : file ∈ (w.append f).2.finish := by
      rw [append_finish]
      exact mem_append_left _ hfile
    exact ⟨hsize, file, hmem', hid, hcodec, e, he, hframe, ho⟩
  · have hscan : e ∈ (w.push f).active.scan := by
      simp only [BlobFile.scan, active, push, scanFrom_append]
      exact mem_append_left _ he
    exact ⟨hsize, (w.push f).active, by simp [append_finish], hid, hcodec, e, hscan, hframe, ho⟩

theorem append_codecs (f : Frame K) : (w.append f).2.compression = w.compression ∧
    (w.append f).2.recorded = w.recorded := by
  unfold append
  dsimp only
  split_ifs <;> exact ⟨rfl, rfl⟩

end BlobFileWriter

end LsmTree
