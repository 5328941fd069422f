import LsmTree.Entry
import LsmTree.Table.BlockEncoder

/-! Data blocks. -/
namespace LsmTree

open Codec DoubleEnded Nat

def ValueType.toByte : ValueType → Fin 256
  | .value => 0
  | .tombstone => 1
  | .weakTombstone => 2
  | .mergeOperand => 3
  | .indirection => 4

def ValueType.ofByte (b : Fin 256) : Option ValueType :=
  match b.val with
  | 0 => some .value
  | 1 => some .tombstone
  | 2 => some .weakTombstone
  | 3 => some .mergeOperand
  | 4 => some .indirection
  | _ => none

theorem ValueType.ofByte_toByte (t : ValueType) : ofByte t.toByte = some t := by
  cases t <;> rfl

theorem ValueType.toByte_ne_marker (t : ValueType) : t.toByte ≠ trailerStartMarker := by
  cases t <;> decide

namespace DataBlock

section Encode

def encodeValue (e : InternalValue Bytes Bytes) : Bytes :=
  if e.isTombstone then [] else writeVarint (e.value.length % 2 ^ 32) ++ e.value

def encodeFull (e : InternalValue Bytes Bytes) : Bytes :=
  e.valueType.toByte :: (writeVarint e.seqno ++
    (writeVarint (e.userKey.length % 2 ^ 16) ++ (e.userKey ++ encodeValue e)))

def encodeTruncated (e : InternalValue Bytes Bytes) (sharedLen : ℕ) : Bytes :=
  e.valueType.toByte :: (writeVarint e.seqno ++ (writeVarint (sharedLen % 2 ^ 16) ++
    (writeVarint ((e.userKey.length - sharedLen) % 2 ^ 16) ++
      (e.userKey.drop sharedLen ++ encodeValue e))))

def encodable : Encodable (InternalValue Bytes Bytes) := ⟨(·.userKey), encodeFull, encodeTruncated⟩

end Encode

section Parse

/-- `DataBlockParsedItem`; `shared` is the part of the restart head's key that the entry's key
begins with. -/
structure ParsedItem where
  valueType : ValueType
  seqno : ℕ
  shared : Option SliceIndexes
  key : SliceIndexes
  value : Option SliceIndexes
  deriving DecidableEq, Repr

def ParsedItem.materialize (data : Bytes) (p : ParsedItem) : InternalValue Bytes Bytes where
  userKey :=
    match p.shared with
    | some shared => slice data shared.start shared.stop ++ slice data p.key.start p.key.stop
    | none => slice data p.key.start p.key.stop
  seqno := p.seqno
  valueType := p.valueType
  value := (p.value.map fun v => slice data v.start v.stop).getD []

variable (data : Bytes) (entriesEnd : ℕ)

def parseType (offset : ℕ) : Option (ValueType × ℕ) := do
  let byte ← data[offset]?
  guard (byte ≠ trailerStartMarker)
  let valueType ← ValueType.ofByte byte
  pure (valueType, offset + 1)

/-- The value of an entry and the offset after it; a tombstone has none. -/
def parseValue (valueType : ValueType) (pos : ℕ) : Option (Option SliceIndexes × ℕ) :=
  if valueType.isTombstone then do
    guard (pos ≤ entriesEnd)
    pure (none, pos)
  else do
    let (len, pos) ← readAt readLeb128 data pos
    guard (len < 2 ^ 32)
    guard (pos ≤ entriesEnd)
    guard (pos + len ≤ entriesEnd)
    pure (some ⟨pos, pos + len⟩, pos + len)

def parseFull (offset : ℕ) : Option (ParsedItem × ℕ) := do
  let (valueType, pos) ← parseType data offset
  let (seqno, pos) ← readAt readLeb128 data pos
  let (keyLen, pos) ← readAt readLeb128 data pos
  guard (keyLen < 2 ^ 16)
  guard (pos ≤ entriesEnd)
  guard (pos + keyLen ≤ entriesEnd)
  let (value, next) ← parseValue data entriesEnd valueType (pos + keyLen)
  pure (⟨valueType, seqno, none, ⟨pos, pos + keyLen⟩, value⟩, next)

def parseTruncated (offset : ℕ) (base : SliceIndexes) : Option (ParsedItem × ℕ) := do
  let (valueType, pos) ← parseType data offset
  let (seqno, pos) ← readAt readLeb128 data pos
  let (sharedLen, pos) ← readAt readLeb128 data pos
  guard (sharedLen < 2 ^ 16)
  let (restLen, pos) ← readAt readLeb128 data pos
  guard (restLen < 2 ^ 16)
  guard (base.start ≤ base.stop ∧ base.stop ≤ offset)
  guard (base.start + sharedLen ≤ base.stop)
  guard (pos ≤ entriesEnd)
  guard (pos + restLen ≤ entriesEnd)
  let (value, next) ← parseValue data entriesEnd valueType (pos + restLen)
  pure (⟨valueType, seqno, some ⟨base.start, base.start + sharedLen⟩, ⟨pos, pos + restLen⟩,
    value⟩, next)

/-- The key and the sequence number of a restart head, without its value. -/
def parseRestartKey (offset : ℕ) : Option (Bytes × ℕ) := do
  let byte ← data[offset]?
  guard (byte ≠ trailerStartMarker)
  let (seqno, pos) ← readAt readLeb128 data (offset + 1)
  let (keyLen, pos) ← readAt readLeb128 data pos
  guard (keyLen < 2 ^ 16)
  guard (pos + keyLen ≤ entriesEnd)
  guard (pos + keyLen ≤ data.length)
  pure (slice data pos (pos + keyLen), seqno)

def decodable : Decodable (InternalValue Bytes Bytes) (Bytes × ℕ) where
  parseRestartKey := parseRestartKey
  parseFull data entriesEnd offset :=
    (parseFull data entriesEnd offset).map fun p => ⟨p.1.materialize data, p.1.key, p.2⟩
  parseTruncated data entriesEnd offset base :=
    (parseTruncated data entriesEnd offset base).map fun p =>
      ⟨p.1.materialize data, p.1.key, p.2⟩

end Parse

structure Storable (e : InternalValue Bytes Bytes) : Prop where
  key : e.userKey.length < 2 ^ 16
  seqno : e.seqno < 2 ^ 64
  value : e.value.length < 2 ^ 32
  tombstone : e.isTombstone = true → e.value = []

section Codes

variable {data : Bytes} {entriesEnd pos : ℕ} {e : InternalValue Bytes Bytes}

theorem parseType_eq (hat : At data pos [e.valueType.toByte]) :
    parseType data pos = some (e.valueType, pos + 1) := by
  have hbyte := hat.getElem?
  simp [parseType, hbyte, guard, e.valueType.toByte_ne_marker, e.valueType.ofByte_toByte]

theorem parseType_marker (h : data[pos]? = some trailerStartMarker) :
    parseType data pos = none := by
  simp [parseType, h, guard]

theorem parseValue_eq (he : Storable e) (hat : At data pos (encodeValue e))
    (hend : pos + (encodeValue e).length ≤ entriesEnd) :
    ∃ value, parseValue data entriesEnd e.valueType pos =
        some (value, pos + (encodeValue e).length) ∧
      (value.map fun v => slice data v.start v.stop).getD [] = e.value := by
  rw [parseValue]
  by_cases ht : e.valueType.isTombstone = true
  · have hempty : encodeValue e = [] := if_pos ht
    rw [hempty, List.length_nil, add_zero] at hend ⊢
    refine ⟨none, ?_, (he.tombstone ht).symm⟩
    rw [if_pos ht, guard_eq_some hend]
    rfl
  · have hvalue : encodeValue e = writeVarint e.value.length ++ e.value := by
      rw [encodeValue, if_neg (show ¬e.isTombstone = true from ht), mod_eq_of_lt he.value]
    rw [hvalue, List.length_append, ← add_assoc] at hend ⊢
    rw [hvalue] at hat
    obtain ⟨hlen, hbytes⟩ := at_append_iff.1 hat
    have hread := (reads_leb128 (he.value.trans (by decide))).readAt hlen
    have hstart : pos + (writeVarint e.value.length).length ≤ entriesEnd := by omega
    refine ⟨some ⟨_, _⟩, ?_, hbytes.slice⟩
    rw [if_neg ht, hread]
    simp only [Option.bind_eq_bind, Option.bind_some, guard_eq_some he.value,
      guard_eq_some hstart, guard_eq_some hend, Option.pure_def]

section Full

variable (he : Storable e) (hat : At data pos (encodeFull e))
  (hend : pos + (encodeFull e).length ≤ entriesEnd)
include he

theorem encodeFull_eq : encodeFull e = [e.valueType.toByte] ++ (writeVarint e.seqno ++
    (writeVarint e.userKey.length ++ (e.userKey ++ encodeValue e))) := by
  rw [encodeFull, mod_eq_of_lt he.key]
  rfl

include hat hend

theorem parseFull_eq :
    ∃ start value, parseFull data entriesEnd pos =
        some (⟨e.valueType, e.seqno, none, ⟨start, start + e.userKey.length⟩, value⟩,
          pos + (encodeFull e).length) ∧
      At data start e.userKey ∧ start + e.userKey.length ≤ pos + (encodeFull e).length ∧
      (value.map fun v => slice data v.start v.stop).getD [] = e.value := by
  rw [encodeFull_eq he] at hat hend ⊢
  simp only [at_append_iff, List.length_append, List.length_singleton, ← add_assoc]
    at hat hend ⊢
  obtain ⟨htype, hseqno, hlen, hkey, hvalue⟩ := hat
  obtain ⟨value, hparse, hval⟩ := parseValue_eq he hvalue hend
  have hread1 := (reads_leb128 he.seqno).readAt hseqno
  have hread2 := (reads_leb128 (he.key.trans (by decide))).readAt hlen
  refine ⟨_, value, ?_, hkey, by omega, hval⟩
  rw [parseFull, parseType_eq htype]
  simp only [Option.bind_eq_bind, Option.bind_some, hread1, hread2, guard_eq_some he.key, hparse]
  rw [guard_eq_some (by omega), guard_eq_some (by omega)]
  rfl

theorem parseRestartKey_eq :
    parseRestartKey data entriesEnd pos = some (e.userKey, e.seqno) := by
  have hin := hat.length_le (succ_pos _)
  rw [encodeFull_eq he] at hat hend hin
  simp only [at_append_iff, List.length_append, List.length_singleton, ← add_assoc]
    at hat hend hin
  obtain ⟨htype, hseqno, hlen, hkey, -⟩ := hat
  have hread1 := (reads_leb128 he.seqno).readAt hseqno
  have hread2 := (reads_leb128 (he.key.trans (by decide))).readAt hlen
  rw [parseRestartKey, htype.getElem?]
  simp only [Option.bind_eq_bind, Option.bind_some, hread1, hread2, guard_eq_some he.key,
    guard_eq_some e.valueType.toByte_ne_marker, hkey.slice]
  rw [guard_eq_some (by omega), guard_eq_some (by omega)]
  rfl

end Full

theorem parseTruncated_eq {start : ℕ} {base : Bytes} (he : Storable e)
    (hbase : At data start base) (hbefore : start + base.length ≤ pos)
    (hat : At data pos
      (encodeTruncated e (longestSharedPrefixLength base e.userKey)))
    (hend : pos + (encodeTruncated e (longestSharedPrefixLength base e.userKey)).length ≤
      entriesEnd) :
    ∃ p, parseTruncated data entriesEnd pos ⟨start, start + base.length⟩ =
        some (p, pos + (encodeTruncated e (longestSharedPrefixLength base e.userKey)).length) ∧
      p.materialize data = e := by
  obtain ⟨hshared, hle, hle'⟩ := take_longestSharedPrefixLength base e.userKey
  generalize longestSharedPrefixLength base e.userKey = n at *
  have hkey := he.key
  have hn : n < 2 ^ 16 := by omega
  have hrest : e.userKey.length - n < 2 ^ 16 := by omega
  have hdrop : (e.userKey.drop n).length = e.userKey.length - n := List.length_drop
  have htrunc : encodeTruncated e n = [e.valueType.toByte] ++ (writeVarint e.seqno ++
      (writeVarint n ++ (writeVarint (e.userKey.length - n) ++
        (e.userKey.drop n ++ encodeValue e)))) := by
    rw [encodeTruncated, mod_eq_of_lt hn, mod_eq_of_lt hrest]
    rfl
  rw [htrunc] at hat hend ⊢
  simp only [at_append_iff, List.length_append, List.length_singleton, ← add_assoc]
    at hat hend ⊢
  obtain ⟨htype, hseqno, hlen1, hlen2, htail, hvalue⟩ := hat
  obtain ⟨value, hparse, hval⟩ := parseValue_eq he hvalue hend
  have hread1 := (reads_leb128 he.seqno).readAt hseqno
  have hread2 := (reads_leb128 (hn.trans (by decide))).readAt hlen1
  have hread3 := (reads_leb128 (hrest.trans (by decide))).readAt hlen2
  have hslice := htail.slice
  rw [hdrop] at hparse hslice hend ⊢
  generalize pos + 1 + (writeVarint e.seqno).length + (writeVarint n).length +
    (writeVarint (e.userKey.length - n)).length = k at *
  have hhead : slice data start (start + n) = e.userKey.take n := by
    have hat : At data start (base.take n) := (List.take_prefix n base).trans hbase
    have hslice := hat.slice
    rwa [List.length_take, min_eq_left hle, hshared] at hslice
  refine ⟨⟨e.valueType, e.seqno, some ⟨start, start + n⟩, ⟨k, k + (e.userKey.length - n)⟩,
    value⟩, ?_, ?_⟩
  · rw [parseTruncated, parseType_eq htype]
    simp only [Option.bind_eq_bind, Option.bind_some, hread1, hread2, hread3, guard_eq_some hn,
      guard_eq_some hrest, hparse]
    rw [guard_eq_some (by omega), guard_eq_some (by omega), guard_eq_some (by omega),
      guard_eq_some (by omega)]
    rfl
  · rw [ParsedItem.materialize]
    dsimp only
    rw [hhead, hslice, List.take_append_drop, hval]

theorem codes : Codes encodable decodable (fun e => (e.userKey, e.seqno)) Storable where
  full_pos _ := succ_pos _
  truncated_pos _ _ := succ_pos _
  full he hat hend := by
    obtain ⟨start, value, hparse, hkey, hle, hval⟩ := parseFull_eq he hat hend
    refine ⟨start, ?_, hkey, hle⟩
    change Option.map _ (parseFull _ _ _) = _
    rw [hparse, Option.map_some, ParsedItem.materialize]
    dsimp only
    rw [hval, hkey.slice]
    rfl
  restartKey he hat hend := parseRestartKey_eq he hat hend
  truncated he hbase hbefore hat hend := by
    obtain ⟨p, hparse, heq⟩ := parseTruncated_eq he hbase hbefore hat hend
    refine ⟨p.key, ?_⟩
    change Option.map _ (parseTruncated _ _ _ _) = _
    rw [hparse, Option.map_some, heq]
    rfl
  full_marker h := by
    change Option.map _ (parseFull _ _ _) = _
    rw [parseFull, parseType_marker h]
    rfl
  truncated_marker h := by
    change Option.map _ (parseTruncated _ _ _ _) = _
    rw [parseTruncated, parseType_marker h]
    rfl

end Codes

def encodeInto (hash64 : Bytes → ℕ) (restartInterval bucketCount : ℕ)
    (items : List (InternalValue Bytes Bytes)) : Bytes :=
  LsmTree.encodeInto encodable hash64 restartInterval bucketCount items

def tryIter (data : Bytes) : Option (Peekable (Decoder (InternalValue Bytes Bytes) (Bytes × ℕ))
    (InternalValue Bytes Bytes)) :=
  (openBlock decodable data).map fun b => Peekable.new (Decoder.new b)

/-- A block of entries that is smaller than four gibibytes without its hash index is read back:
any interleaving of calls from the two ends gives what it gives on the entries. -/
theorem drive_tryIter (hash64 : Bytes → ℕ) {restartInterval bucketCount : ℕ}
    {items : List (InternalValue Bytes Bytes)} (hpos : 1 ≤ restartInterval)
    (hinterval : restartInterval < 2 ^ 8) (hbuckets : bucketCount < 2 ^ 32)
    (hitems : items ≠ []) (hstorable : ∀ e ∈ items, Storable e)
    (hsize : (encodeInto hash64 restartInterval 0 items).length < 2 ^ 32) :
    ∃ it, tryIter (encodeInto hash64 restartInterval bucketCount items) = some it ∧
      ∀ calls, drive calls it = drive calls items := by
  obtain ⟨b, hopen, ⟨L⟩, -⟩ :=
    codes.openBlock_encodeInto hstorable hash64 hpos hinterval hitems hbuckets hsize
  refine ⟨Peekable.new (Decoder.new b), ?_, fun calls => ?_⟩
  · rw [tryIter, encodeInto, hopen, Option.map_some]
  · exact (Peekable.yields (Decoder.yields _ items)).drive_eq
      (Peekable.holds_new (Decoder.serves_new L)) calls

/-- Three entries in two intervals; the second one is written against the first. -/
def sharedKeys : List (InternalValue Bytes Bytes) :=
  [⟨[1, 2], 5, .value, [7]⟩, ⟨[1, 2, 9], 4, .tombstone, []⟩, ⟨[1, 3], 9, .mergeOperand, [8, 8]⟩]

theorem sharedKeys_read_back : ∃ it, tryIter (encodeInto List.length 2 3 sharedKeys) = some it ∧
    drive [.back, .front, .back, .front] it =
      [some ⟨[1, 3], 9, .mergeOperand, [8, 8]⟩, some ⟨[1, 2], 5, .value, [7]⟩,
        some ⟨[1, 2, 9], 4, .tombstone, []⟩, none] := by
  have hstorable : ∀ e ∈ sharedKeys, Storable e := by
    simp only [sharedKeys, List.forall_mem_cons]
    refine ⟨⟨?_, ?_, ?_, ?_⟩, ⟨?_, ?_, ?_, ?_⟩, ⟨?_, ?_, ?_, ?_⟩, nofun⟩ <;> decide
  obtain ⟨it, hit, hdrive⟩ := drive_tryIter List.length (by decide : 1 ≤ 2) (by decide)
    (by decide : 3 < 2 ^ 32) (by decide) hstorable (by decide +kernel)
  exact ⟨it, hit, (hdrive _).trans (by decide)⟩

theorem tryIter_large (hash64 : Bytes → ℕ) {e : InternalValue Bytes Bytes}
    (hlarge : 2 ^ 32 ≤ (encodeFull e).length) : tryIter (encodeInto hash64 1 0 [e]) = none := by
  obtain ⟨m, h⟩ := exists_after encodable hash64 1 [e] one_pos 0 e.userKey
    (le_refl [e].length)
  have hwriter : entriesBytes encodable 1 [e] 1 = encodeFull e := by
    rw [entriesBytes_succ, show entryBytes encodable 1 [e] 0 = encodeFull e from rfl]
    rfl
  have hw := congrArg List.length (h.writer.trans hwriter)
  have hnone := openBlock_finish_none decodable (by decide : 1 < 256)
    (h.hashIndex.trans_lt (by decide)) fun haddr => by
      have := haddr.entries
      omega
  rw [tryIter, encodeInto, LsmTree.encodeInto]
  rw [List.take_length] at hnone
  rw [show ([e].head?.map encodable.key).getD [] = e.userKey from rfl, hnone, Option.map_none]

theorem exists_length_add_one {n : ℕ} (h : 0 < n) : ∃ value : Bytes, value.length + 1 = n :=
  ⟨List.replicate (n - 1) 0, by rw [List.length_replicate]; omega⟩

/-- A value as long as a value can be is enough for that. -/
theorem longest_value_not_opened : ∃ e, Storable e ∧
    tryIter (encodeInto (fun _ => 0) 1 0 [e]) = none := by
  obtain ⟨value, hlength⟩ : ∃ value : Bytes, value.length + 1 = 2 ^ 32 :=
    exists_length_add_one (by decide)
  refine ⟨⟨[0], 1, .value, value⟩,
    ⟨(by decide : 1 < 2 ^ 16), (by decide : 1 < 2 ^ 64), ?_, nofun⟩, tryIter_large _ ?_⟩
  · dsimp only
    omega
  · simp only [encodeFull, encodeValue, List.length_cons, List.length_append,
      InternalValue.isTombstone, ValueType.isTombstone, Bool.false_eq_true, if_false]
    omega

end DataBlock

end LsmTree
