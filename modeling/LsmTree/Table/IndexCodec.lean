import LsmTree.Key
import LsmTree.Table.BlockEncoder
import LsmTree.Table.BlockSeek

/-! The bytes of index blocks. -/
namespace LsmTree

open Codec DoubleEnded Option Nat

/-- The block ends before the position of the needle in the order of entries. -/
def endsBefore {K : Type*} [LinearOrder K] (needle : K) (seqno : ℕ) (head : K × ℕ) : Bool :=
  head.1 < needle ∨ head.1 = needle ∧ seqno ≤ head.2

@[simp] theorem endsBefore_iff {K : Type*} [LinearOrder K] {needle : K} {seqno : ℕ}
    {head : K × ℕ} :
    endsBefore needle seqno head = true ↔ head.1 < needle ∨ head.1 = needle ∧ seqno ≤ head.2 :=
  decide_eq_true_iff

/-- `KeyedBlockHandle`, as it is written. -/
structure StoredHandle (K : Type) where
  endKey : K
  seqno : ℕ
  offset : ℕ
  size : ℕ
  deriving DecidableEq, Repr

namespace StoredHandle

variable {K : Type} [RawKey K]

open RawKey (toBytes ofBytes)

omit [RawKey K] in
def head (h : StoredHandle K) : K × ℕ := (h.endKey, h.seqno)

section Encode

omit [RawKey K] in
/-- `BlockHandle::encode_into`, and the sequence number after it. -/
def encodePlace (h : StoredHandle K) : Bytes :=
  writeVarint h.offset ++ (writeVarint h.size ++ writeVarint h.seqno)

def encodeFull (h : StoredHandle K) : Bytes :=
  0 :: (h.encodePlace ++ (writeVarint ((toBytes h.endKey).length % 2 ^ 16) ++ toBytes h.endKey))

def encodeTruncated (h : StoredHandle K) (sharedLen : ℕ) : Bytes :=
  1 :: (h.encodePlace ++ (writeVarint (sharedLen % 2 ^ 16) ++
    (writeVarint (((toBytes h.endKey).length - sharedLen) % 2 ^ 16) ++
      (toBytes h.endKey).drop sharedLen)))

def encodable : Encodable (StoredHandle K) :=
  ⟨fun h => toBytes h.endKey, encodeFull, encodeTruncated⟩

end Encode

section Parse

variable (data : Bytes) (entriesEnd : ℕ)

/-- The offset, the size and the sequence number of a handle, and the position after them. -/
def parsePlace (pos : ℕ) : Option ((ℕ × ℕ × ℕ) × ℕ) := do
  let (offset, pos) ← readAt readLeb128 data pos
  let (size, pos) ← readAt readLeb128 data pos
  guard (size < 2 ^ 32)
  let (seqno, pos) ← readAt readLeb128 data pos
  pure ((offset, size, seqno), pos)

def parseFull (offset : ℕ) : Option (Parsed (StoredHandle K)) := do
  let marker ← data[offset]?
  guard (marker = 0)
  let (place, pos) ← parsePlace data (offset + 1)
  let (keyLen, pos) ← readAt readLeb128 data pos
  guard (keyLen < 2 ^ 16)
  guard (pos ≤ entriesEnd)
  guard (pos + keyLen ≤ entriesEnd)
  pure ⟨⟨ofBytes (slice data pos (pos + keyLen)), place.2.2, place.1, place.2.1⟩,
    ⟨pos, pos + keyLen⟩, pos + keyLen⟩

def parseRestartKey (offset : ℕ) : Option (K × ℕ) := do
  let marker ← data[offset]?
  guard (marker = 0)
  let (place, pos) ← parsePlace data (offset + 1)
  let (keyLen, pos) ← readAt readLeb128 data pos
  guard (keyLen < 2 ^ 16)
  guard (pos + keyLen ≤ entriesEnd)
  guard (pos + keyLen ≤ data.length)
  pure (ofBytes (slice data pos (pos + keyLen)), place.2.2)

def parseTruncated (offset : ℕ) (base : SliceIndexes) : Option (Parsed (StoredHandle K)) := do
  let marker ← data[offset]?
  guard (marker = 1)
  let (place, pos) ← parsePlace data (offset + 1)
  let (sharedLen, pos) ← readAt readLeb128 data pos
  guard (sharedLen < 2 ^ 16)
  let (restLen, pos) ← readAt readLeb128 data pos
  guard (restLen < 2 ^ 16)
  guard (pos ≤ entriesEnd)
  guard (pos + restLen ≤ entriesEnd)
  guard (base.start ≤ base.stop ∧ base.stop ≤ offset)
  guard (base.start + sharedLen ≤ base.stop)
  pure ⟨⟨ofBytes (slice data base.start (base.start + sharedLen) ++
      slice data pos (pos + restLen)), place.2.2, place.1, place.2.1⟩,
    ⟨pos, pos + restLen⟩, pos + restLen⟩

def decodable : Decodable (StoredHandle K) (K × ℕ) := ⟨parseRestartKey, parseFull, parseTruncated⟩

end Parse

structure Storable (h : StoredHandle K) : Prop where
  key : (toBytes h.endKey).length < 2 ^ 16
  seqno : h.seqno < 2 ^ 64
  offset : h.offset < 2 ^ 64
  size : h.size < 2 ^ 32

section Codes

variable {data : Bytes} {entriesEnd pos : ℕ} {h : StoredHandle K}

theorem parsePlace_eq (hs : h.Storable) (hat : At data pos h.encodePlace) :
    parsePlace data pos =
      some ((h.offset, h.size, h.seqno), pos + h.encodePlace.length) := by
  unfold encodePlace at hat ⊢
  simp only [at_append_iff, List.length_append, ← add_assoc] at hat ⊢
  obtain ⟨hoffset, hsize, hseqno⟩ := hat
  have hread1 := (reads_leb128 hs.offset).readAt hoffset
  have hread2 := (reads_leb128 (hs.size.trans (by decide))).readAt hsize
  have hread3 := (reads_leb128 hs.seqno).readAt hseqno
  simp only [parsePlace, bind_eq_bind, hread1, hread2, hread3, bind_some,
    guard_eq_some hs.size, pure_def]

section Full

variable (hs : h.Storable) (hat : At data pos h.encodeFull)
  (hend : pos + h.encodeFull.length ≤ entriesEnd)
include hs

theorem encodeFull_eq : h.encodeFull = [0] ++ (h.encodePlace ++
    (writeVarint (toBytes h.endKey).length ++ toBytes h.endKey)) := by
  rw [encodeFull, mod_eq_of_lt hs.key]
  rfl

include hat hend

theorem parseFull_eq : ∃ start,
    parseFull data entriesEnd pos =
      some ⟨h, ⟨start, start + (toBytes h.endKey).length⟩, pos + h.encodeFull.length⟩ ∧
    At data start (toBytes h.endKey) ∧
    start + (toBytes h.endKey).length = pos + h.encodeFull.length := by
  rw [encodeFull_eq hs] at hat hend ⊢
  simp only [at_append_iff, List.length_append, List.length_singleton, ← add_assoc]
    at hat hend ⊢
  obtain ⟨hmarker, hplace, hlen, hkey⟩ := hat
  have hread := (reads_leb128 (hs.key.trans (by decide))).readAt hlen
  refine ⟨_, ?_, hkey, rfl⟩
  rw [parseFull, hmarker.getElem?]
  simp only [bind_eq_bind, bind_some, guard_eq_some trivial,
    parsePlace_eq hs hplace, hread, guard_eq_some hs.key, hkey.slice, RawKey.ofBytes_toBytes]
  rw [guard_eq_some (by omega), guard_eq_some hend]
  rfl

theorem parseRestartKey_eq : parseRestartKey data entriesEnd pos = some h.head := by
  have hin := hat.length_le (succ_pos _)
  rw [encodeFull_eq hs] at hat hend hin
  simp only [at_append_iff, List.length_append, List.length_singleton, ← add_assoc]
    at hat hend hin
  obtain ⟨hmarker, hplace, hlen, hkey⟩ := hat
  have hread := (reads_leb128 (hs.key.trans (by decide))).readAt hlen
  rw [parseRestartKey, hmarker.getElem?]
  simp only [bind_eq_bind, bind_some, guard_eq_some trivial,
    parsePlace_eq hs hplace, hread, guard_eq_some hs.key, hkey.slice, RawKey.ofBytes_toBytes]
  rw [guard_eq_some hend, guard_eq_some hin]
  rfl

end Full

theorem parseTruncated_eq {start : ℕ} {base : Bytes} (hs : h.Storable) (hbase : At data start base)
    (hbefore : start + base.length ≤ pos)
    (hat : At data pos
      (h.encodeTruncated (longestSharedPrefixLength base (toBytes h.endKey))))
    (hend : pos + (h.encodeTruncated
      (longestSharedPrefixLength base (toBytes h.endKey))).length ≤ entriesEnd) :
    ∃ key, parseTruncated data entriesEnd pos ⟨start, start + base.length⟩ =
      some ⟨h, key, pos +
        (h.encodeTruncated (longestSharedPrefixLength base (toBytes h.endKey))).length⟩ := by
  obtain ⟨hshared, hle, hle'⟩ := take_longestSharedPrefixLength base (toBytes h.endKey)
  generalize longestSharedPrefixLength base (toBytes h.endKey) = n at *
  have hkey := hs.key
  have hn : n < 2 ^ 16 := by omega
  have hrest : (toBytes h.endKey).length - n < 2 ^ 16 := by omega
  have hdrop : ((toBytes h.endKey).drop n).length = (toBytes h.endKey).length - n :=
    List.length_drop
  have htrunc : h.encodeTruncated n = [1] ++ (h.encodePlace ++ (writeVarint n ++
      (writeVarint ((toBytes h.endKey).length - n) ++ (toBytes h.endKey).drop n))) := by
    rw [encodeTruncated, mod_eq_of_lt hn, mod_eq_of_lt hrest]
    rfl
  rw [htrunc] at hat hend ⊢
  simp only [at_append_iff, List.length_append, List.length_singleton, ← add_assoc]
    at hat hend ⊢
  obtain ⟨hmarker, hplace, hlen1, hlen2, htail⟩ := hat
  have hread1 := (reads_leb128 (hn.trans (by decide))).readAt hlen1
  have hread2 := (reads_leb128 (hrest.trans (by decide))).readAt hlen2
  have hslice := htail.slice
  rw [hdrop] at hslice hend ⊢
  have hhead : slice data start (start + n) = (toBytes h.endKey).take n := by
    have hat : At data start (base.take n) := (List.take_prefix n base).trans hbase
    have hslice := hat.slice
    rwa [List.length_take, min_eq_left hle, hshared] at hslice
  generalize pos + 1 + h.encodePlace.length + (writeVarint n).length +
    (writeVarint ((toBytes h.endKey).length - n)).length = k at *
  refine ⟨⟨k, k + ((toBytes h.endKey).length - n)⟩, ?_⟩
  rw [parseTruncated, hmarker.getElem?]
  simp only [bind_eq_bind, bind_some, guard_eq_some trivial,
    parsePlace_eq hs hplace, hread1, hread2, guard_eq_some hn, guard_eq_some hrest, hhead, hslice, List.take_append_drop,
    RawKey.ofBytes_toBytes]
  rw [guard_eq_some (by omega), guard_eq_some hend, guard_eq_some (by omega),
    guard_eq_some (by omega)]
  rfl

theorem codes : Codes (encodable (K := K)) decodable head Storable where
  full_pos _ := succ_pos _
  truncated_pos _ _ := succ_pos _
  full hs hat hend := by
    obtain ⟨start, hparse, hkey, hle⟩ := parseFull_eq hs hat hend
    exact ⟨start, hparse, hkey, hle.le⟩
  restartKey hs hat hend := parseRestartKey_eq hs hat hend
  truncated hs hbase hbefore hat hend := parseTruncated_eq hs hbase hbefore hat hend
  full_marker hmarker := by
    change parseFull _ _ _ = none
    rw [parseFull, hmarker]
    rfl
  truncated_marker hmarker := by
    change parseTruncated _ _ _ _ = none
    rw [parseTruncated, hmarker]
    rfl

end Codes

/-- `IndexBlock::encode_into_with_restart_interval`: index blocks have no hash index. -/
def encodeInto (restartInterval : ℕ) (handles : List (StoredHandle K)) : Bytes :=
  LsmTree.encodeInto encodable (fun _ => 0) restartInterval 0 handles

end StoredHandle

end LsmTree
