import LsmTree.Theory.Codec
import LsmTree.Table.BlockDecoder

/-! The bytes of a block. -/
namespace LsmTree

open Codec List Nat

def longestSharedPrefixLength {β : Type} [DecidableEq β] : List β → List β → ℕ
  | a :: as, b :: bs => if a = b then longestSharedPrefixLength as bs + 1 else 0
  | _, _ => 0

theorem take_longestSharedPrefixLength {β : Type} [DecidableEq β] (as bs : List β) :
    as.take (longestSharedPrefixLength as bs) = bs.take (longestSharedPrefixLength as bs) ∧
      longestSharedPrefixLength as bs ≤ as.length ∧
      longestSharedPrefixLength as bs ≤ bs.length := by
  fun_induction longestSharedPrefixLength with
  | case1 as b bs ih => simpa using ih
  | case2 => simp
  | case3 => simp

section Encoder

variable {α : Type}

/-- How items of a type are written: in full, or without the first bytes of their key. -/
structure Encodable (α : Type) where
  key : α → Bytes
  encodeFull : α → Bytes
  encodeTruncated : α → ℕ → Bytes

def markerFree : Fin 256 := 254

def markerConflict : Fin 256 := 255

def maxPointersForHashIndex : ℕ := 254

/-- The marker of a bucket that is set: two restart intervals in one bucket make a conflict. -/
def nextMarker (pos curr : Fin 256) : Fin 256 :=
  if curr = markerConflict then curr
  else if curr = markerFree then pos
  else if curr = pos then curr
  else markerConflict

/-- `hash_index::Builder::set` -/
def setBucket (hash64 : Bytes → ℕ) (buckets : Bytes) (key : Bytes) (pos : Fin 256) : Bytes :=
  buckets.modify (hash64 key % buckets.length) (nextMarker pos)

structure Encoder where
  writer : Bytes
  itemCount : ℕ
  restartCount : ℕ
  binaryIndex : List ℕ
  hashIndex : Bytes
  baseKey : Bytes

/-- The bucket count stands for the hash ratio, a float from which the source computes it. -/
def Encoder.new (bucketCount : ℕ) (firstKey : Bytes) : Encoder :=
  ⟨[], 0, 0, [], List.replicate bucketCount markerFree, firstKey⟩

variable (E : Encodable α) (hash64 : Bytes → ℕ) (restartInterval : ℕ)

def Encoder.writeItem (e : Encoder) (item : α) : Encoder :=
  if e.itemCount % restartInterval = 0 then
    { e with
      restartCount := e.restartCount + 1
      binaryIndex :=
        if 0 < restartInterval then e.binaryIndex ++ [e.writer.length % 2 ^ 32] else e.binaryIndex
      writer := e.writer ++ E.encodeFull item
      baseKey := E.key item }
  else
    { e with
      writer := e.writer ++
        E.encodeTruncated item (longestSharedPrefixLength e.baseKey (E.key item)) }

def Encoder.write (e : Encoder) (item : α) : Encoder :=
  let e := e.writeItem E restartInterval item
  let restartIdx := e.restartCount - 1
  let e :=
    if 0 < e.hashIndex.length ∧ restartIdx < maxPointersForHashIndex then
      { e with hashIndex := setBucket hash64 e.hashIndex (E.key item) (Fin.ofNat 256 restartIdx) }
    else e
  { e with itemCount := e.itemCount + 1 }

def trailerStartMarker : Fin 256 := 255

def trailerSize : ℕ := 31

/-- `binary_index::Builder::write`: pointers of two bytes where the last one fits them. -/
def pointerSize (pointers : List ℕ) : ℕ := if pointers.getLast?.getD 0 < 2 ^ 16 then 2 else 4

def writeIndex (pointers : List ℕ) : Bytes := pointers.flatMap (encodeLe (pointerSize pointers))

structure TrailerFields where
  restartInterval : ℕ
  stepSize : ℕ
  binaryIndexLen : ℕ
  binaryIndexOffset : ℕ
  hashIndexLen : ℕ
  hashIndexOffset : ℕ
  deriving DecidableEq, Repr

/-- The fields a decoder reads, then fixed key and value sizes, which are not used, and the item
count. -/
def TrailerFields.write (t : TrailerFields) (itemCount : ℕ) : Bytes :=
  encodeLe 1 t.restartInterval ++ (encodeLe 1 t.stepSize ++ (encodeLe 4 t.binaryIndexLen ++
    (encodeLe 4 t.binaryIndexOffset ++ (encodeLe 4 t.hashIndexLen ++
    encodeLe 4 t.hashIndexOffset)))) ++
  (encodeLe 1 1 ++ (encodeLe 1 0 ++ (encodeLe 2 0 ++ (encodeLe 1 0 ++ (encodeLe 4 0 ++
    encodeLe 4 itemCount)))))

/-- `Trailer::write` -/
def Encoder.finish (e : Encoder) : Bytes :=
  let entries := e.writer ++ [trailerStartMarker]
  let indexed := entries ++ writeIndex e.binaryIndex
  let hashed : Bool :=
    0 < e.hashIndex.length && e.binaryIndex.length ≤ maxPointersForHashIndex
  let hashIndexOffset := if hashed then indexed.length % 2 ^ 32 else 0
  let body := if hashed then indexed ++ e.hashIndex else indexed
  body ++ TrailerFields.write ⟨restartInterval, pointerSize e.binaryIndex, e.binaryIndex.length,
    entries.length % 2 ^ 32, if 0 < hashIndexOffset then e.hashIndex.length else 0,
    hashIndexOffset⟩ e.itemCount

def encodeInto (bucketCount : ℕ) (items : List α) : Bytes :=
  ((items.foldl (Encoder.write E hash64 restartInterval)
    (Encoder.new bucketCount ((items.head?.map E.key).getD []))).finish restartInterval)

end Encoder

section Open

variable {α κ : Type}

/-- How items of a type are read off a block at an offset. -/
structure Decodable (α κ : Type) where
  parseRestartKey : Bytes → ℕ → ℕ → Option κ
  parseFull : Bytes → ℕ → ℕ → Option (Parsed α)
  parseTruncated : Bytes → ℕ → ℕ → SliceIndexes → Option (Parsed α)

def readTrailer : Reader TrailerFields := do
  let restartInterval ← read 1
  let stepSize ← read 1
  let binaryIndexLen ← read 4
  let binaryIndexOffset ← read 4
  let hashIndexLen ← read 4
  let hashIndexOffset ← read 4
  pure ⟨restartInterval, stepSize, binaryIndexLen, binaryIndexOffset, hashIndexLen,
    hashIndexOffset⟩

/-- `validate_trailer_fields` -/
def TrailerFields.valid (t : TrailerFields) : Bool :=
  t.restartInterval != 0 && (t.stepSize == 2 || t.stepSize == 4)

/-- `binary_index_bounds`: the index and the hash index end where the next part begins. -/
def TrailerFields.bounds (t : TrailerFields) (trailerOffset : ℕ) : Bool :=
  t.binaryIndexLen != 0 &&
    ((t.hashIndexLen == 0) == (t.hashIndexOffset == 0) &&
    (t.hashIndexOffset ≤ trailerOffset &&
    ((t.hashIndexOffset == 0 || t.hashIndexOffset + t.hashIndexLen == trailerOffset) &&
    (t.binaryIndexOffset != 0 && t.binaryIndexOffset + t.binaryIndexLen * t.stepSize ==
      (if 0 < t.hashIndexOffset then t.hashIndexOffset else trailerOffset)))))

/-- A block of the given bytes, read by the parsers of its item type. -/
def Decodable.block (D : Decodable α κ) (data : Bytes) (entriesEnd restartInterval : ℕ)
    (binaryIndex : List ℕ) (hashIndex : Bytes) : EncodedBlock α κ where
  len := data.length
  entriesEnd := entriesEnd
  restartInterval := restartInterval
  binaryIndex := binaryIndex
  hashIndex := hashIndex
  parseRestartKey := D.parseRestartKey data entriesEnd
  parseFull := D.parseFull data entriesEnd
  parseTruncated := D.parseTruncated data entriesEnd

/-- `binary_index::Reader::get` -/
def readPointer (data : Bytes) (t : TrailerFields) (idx : ℕ) : ℕ :=
  ((decodeLe t.stepSize (data.drop (t.binaryIndexOffset + idx * t.stepSize))).map Prod.fst).getD 0

/-- `Decoder::try_new` -/
def openBlock (D : Decodable α κ) (data : Bytes) : Option (EncodedBlock α κ) :=
  if data.length < trailerSize then none
  else
    match readTrailer.run (data.drop (data.length - trailerSize)) with
    | none => none
    | some (t, _) =>
      if t.valid && t.bounds (data.length - trailerSize) &&
          data[t.binaryIndexOffset - 1]? == some trailerStartMarker then
        some (D.block data (t.binaryIndexOffset - 1) t.restartInterval
          ((List.range t.binaryIndexLen).map (readPointer data t))
          (slice data t.hashIndexOffset (t.hashIndexOffset + t.hashIndexLen)))
      else none

end Open

section Written

variable {α : Type} (E : Encodable α) (hash64 : Bytes → ℕ) (restartInterval : ℕ) (items : List α)

def keyAt (i : ℕ) : Bytes := (items[i]?.map E.key).getD []

/-- The bytes written for item `i`: a head in full, any other item against its head. -/
def entryBytes (i : ℕ) : Bytes :=
  match items[i]? with
  | none => []
  | some a =>
    if i % restartInterval = 0 then E.encodeFull a
    else E.encodeTruncated a
      (longestSharedPrefixLength (keyAt E items (i - i % restartInterval)) (E.key a))

def entriesBytes (i : ℕ) : Bytes := (List.range i).flatMap (entryBytes E restartInterval items)

theorem entriesBytes_succ (i : ℕ) : entriesBytes E restartInterval items (i + 1) =
    entriesBytes E restartInterval items i ++ entryBytes E restartInterval items i := by
  rw [entriesBytes, range_succ, flatMap_append, flatMap_singleton]
  rfl

variable {i : ℕ}

theorem at_entryBytes {n : ℕ} (hi : i < n) (rest : Bytes) :
    At (entriesBytes E restartInterval items n ++ rest)
      (entriesBytes E restartInterval items i).length (entryBytes E restartInterval items i) := by
  induction n generalizing rest with
  | zero => exact absurd hi (not_lt_zero i)
  | succ n ih =>
    rw [entriesBytes_succ]
    rcases Nat.lt_succ_iff_lt_or_eq.1 hi with hlt | rfl
    · rw [append_assoc]
      exact ih hlt _
    · exact at_append _ _ _

variable {E hash64 restartInterval items}

variable {j : ℕ} {a : α}

theorem entryBytes_head (ha : items[j * restartInterval]? = some a) :
    entryBytes E restartInterval items (j * restartInterval) = E.encodeFull a := by
  simp only [entryBytes, ha, mul_mod_left, if_true]

theorem entryBytes_inner {r : ℕ} (hpos : 0 < r) (hlt : r < restartInterval)
    (ha : items[j * restartInterval + r]? = some a) :
    entryBytes E restartInterval items (j * restartInterval + r) =
      E.encodeTruncated a
        (longestSharedPrefixLength (keyAt E items (j * restartInterval)) (E.key a)) := by
  have hmod : (j * restartInterval + r) % restartInterval = r := Nat.mul_add_mod_of_lt hlt
  have hne : ¬r = 0 := by omega
  simp only [entryBytes, ha, hmod, if_neg hne, Nat.add_sub_cancel]

/-- The bucket of a key tells that the key occurs in interval `j`: it is a conflict, or it names
that interval. -/
def Marks (buckets : Bytes) (hash j : ℕ) : Prop :=
  ∃ v, buckets[hash % buckets.length]? = some v ∧ v ≠ markerFree ∧
    (v ≠ markerConflict → v.val = j)

/-- A hash index that is there knows the interval of every item. -/
def EncodedBlock.HashIndexed {α κ : Type} (b : EncodedBlock α κ) (hash : α → ℕ)
    (items : List α) : Prop :=
  b.hashIndex = [] ∨ ∀ j r a, r < b.restartInterval →
    items[j * b.restartInterval + r]? = some a → Marks b.hashIndex (hash a) j

/-- A bucket that is neither free nor in conflict names an interval of the block. -/
def EncodedBlock.NamesIntervals {α κ : Type} (b : EncodedBlock α κ) : Prop :=
  ∀ v ∈ b.hashIndex, v = markerFree ∨ v = markerConflict ∨ v.val < b.binaryIndex.length

section Buckets

variable {buckets key : Bytes} {pos : Fin 256}

theorem setBucket_length : (setBucket hash64 buckets key pos).length = buckets.length :=
  length_modify _ _ _

theorem nextMarker_ne_free {curr : Fin 256} (h : curr ≠ markerFree ∨ pos ≠ markerFree) :
    nextMarker pos curr ≠ markerFree := by
  unfold nextMarker
  split_ifs with hconflict hfree hsame
  · rw [hconflict]
    decide
  · exact h.resolve_left (not_not.2 hfree)
  · exact hfree
  · decide

theorem Marks.setBucket {hash j : ℕ} (h : Marks buckets hash j) :
    Marks (setBucket hash64 buckets key pos) hash j := by
  obtain ⟨v, hv, hfree, hname⟩ := h
  rw [Marks, setBucket_length, LsmTree.setBucket, getElem?_modify, hv]
  by_cases hsame : hash64 key % buckets.length = hash % buckets.length
  · refine ⟨nextMarker pos v, by simp [hsame], nextMarker_ne_free (.inl hfree), ?_⟩
    unfold nextMarker
    split_ifs with hconflict hpos
    · exact hname
    · exact hname
    · exact fun h => absurd rfl h
  · exact ⟨v, by simp [hsame], hfree, hname⟩

theorem marks_setBucket (hlen : 0 < buckets.length) (hpos : pos ≠ markerFree) :
    Marks (setBucket hash64 buckets key pos) (hash64 key) pos.val := by
  have hlt : hash64 key % buckets.length < buckets.length := mod_lt _ hlen
  rw [Marks, setBucket_length, setBucket, getElem?_modify, List.getElem?_eq_getElem hlt]
  refine ⟨nextMarker pos buckets[hash64 key % buckets.length], by simp,
    nextMarker_ne_free (.inr hpos), ?_⟩
  unfold nextMarker
  split_ifs with hconflict hfree hsame
  · exact fun h => absurd hconflict h
  · exact fun _ => rfl
  · exact fun _ => by rw [hsame]
  · exact fun h => absurd rfl h

end Buckets

theorem Encoder.write_eq (hash64 : Bytes → ℕ) (e : Encoder) (a : α) :
    ∃ buckets : Bytes, buckets.length = (e.writeItem E restartInterval a).hashIndex.length ∧
      e.write E hash64 restartInterval a =
        { e.writeItem E restartInterval a with
          hashIndex := buckets
          itemCount := (e.writeItem E restartInterval a).itemCount + 1 } ∧
      (∀ hash j, Marks (e.writeItem E restartInterval a).hashIndex hash j →
        Marks buckets hash j) ∧
      (0 < buckets.length →
        (e.writeItem E restartInterval a).restartCount - 1 < maxPointersForHashIndex →
        Marks buckets (hash64 (E.key a)) ((e.writeItem E restartInterval a).restartCount - 1)) := by
  rw [Encoder.write]
  generalize e.writeItem E restartInterval a = e'
  dsimp only
  split_ifs with hset
  · refine ⟨_, setBucket_length, rfl, fun _ _ => Marks.setBucket, fun _ hidx => ?_⟩
    have hval : (Fin.ofNat 256 (e'.restartCount - 1)).val = e'.restartCount - 1 :=
      mod_eq_of_lt (hidx.trans (by decide))
    have hfree : Fin.ofNat 256 (e'.restartCount - 1) ≠ markerFree := by
      intro heq
      rw [heq] at hval
      exact absurd hidx (by rw [← hval]; decide)
    have hmarks := @marks_setBucket hash64 e'.hashIndex (E.key a) _ hset.1 hfree
    rwa [hval] at hmarks
  · exact ⟨_, rfl, rfl, fun _ _ h => h, fun hlen hidx => absurd ⟨hlen, hidx⟩ hset⟩

structure Encoder.After (E : Encodable α) (hash64 : Bytes → ℕ) (restartInterval : ℕ)
    (items : List α) (bucketCount : ℕ) (e : Encoder) (i m : ℕ) : Prop where
  writer : e.writer = entriesBytes E restartInterval items i
  itemCount : e.itemCount = i
  restartCount : e.restartCount = m
  le : i ≤ m * restartInterval
  lt : m * restartInterval < i + restartInterval
  binaryIndex : e.binaryIndex = (List.range m).map fun j =>
    (entriesBytes E restartInterval items (j * restartInterval)).length % 2 ^ 32
  hashIndex : e.hashIndex.length = bucketCount
  marks : 0 < bucketCount → m ≤ maxPointersForHashIndex → ∀ j r a, r < restartInterval →
    j * restartInterval + r < i → items[j * restartInterval + r]? = some a →
    Marks e.hashIndex (hash64 (E.key a)) j
  baseKey : 0 < m → e.baseKey = keyAt E items ((m - 1) * restartInterval)

namespace Encoder.After

variable {bucketCount : ℕ} {e : Encoder} {i m : ℕ} {a : α}

theorem writeItem_head (h : After E hash64 restartInterval items bucketCount e i m)
    (hpos : 0 < restartInterval) (ha : items[i]? = some a) (hi : i = m * restartInterval) :
    e.writeItem E restartInterval a =
      ⟨e.writer ++ entryBytes E restartInterval items i, e.itemCount, m + 1,
        e.binaryIndex ++ [e.writer.length % 2 ^ 32], e.hashIndex, E.key a⟩ := by
  subst hi
  rw [writeItem, h.itemCount, mul_mod_left, if_pos rfl, if_pos hpos, entryBytes_head ha,
    h.restartCount]

theorem writeItem_inner (h : After E hash64 restartInterval items bucketCount e i m)
    (ha : items[i]? = some a) (hi : i < m * restartInterval) :
    e.writeItem E restartInterval a =
      { e with writer := e.writer ++ entryBytes E restartInterval items i } := by
  have hlt := h.lt
  obtain ⟨m, rfl⟩ := exists_eq_add_one_of_ne_zero (show m ≠ 0 by rintro rfl; omega)
  rw [Nat.succ_mul] at hi hlt
  obtain ⟨r, rfl⟩ := Nat.exists_eq_add_of_le (show m * restartInterval ≤ i by omega)
  have hne : ¬(m * restartInterval + r) % restartInterval = 0 := by
    rw [Nat.mul_add_mod_of_lt (by omega)]
    omega
  rw [writeItem, h.itemCount, if_neg hne, entryBytes_inner (by omega) (by omega) ha,
    h.baseKey (succ_pos m), Nat.add_sub_cancel]

theorem interval_unique {j k : ℕ} (hj : j * restartInterval ≤ i)
    (hj' : i < j * restartInterval + restartInterval) (hk : k * restartInterval ≤ i)
    (hk' : i < k * restartInterval + restartInterval) : j = k := by
  have h1 : j * restartInterval < (k + 1) * restartInterval := by
    rw [Nat.succ_mul]
    omega
  have h2 : k * restartInterval < (j + 1) * restartInterval := by
    rw [Nat.succ_mul]
    omega
  have h1' := Nat.lt_of_mul_lt_mul_right h1
  have h2' := Nat.lt_of_mul_lt_mul_right h2
  omega

theorem marks_succ (h : After E hash64 restartInterval items bucketCount e i m) {k : ℕ}
    {buckets : Bytes} (ha : items[i]? = some a) (hmk : m ≤ k + 1)
    (hk : k * restartInterval ≤ i) (hk' : i < k * restartInterval + restartInterval)
    (hkeep : ∀ hash j, Marks e.hashIndex hash j → Marks buckets hash j)
    (hnew : 0 < bucketCount → k < maxPointersForHashIndex →
      Marks buckets (hash64 (E.key a)) k) (hcount : 0 < bucketCount)
    (hmax : k + 1 ≤ maxPointersForHashIndex) (j r : ℕ) (x : α) (hr : r < restartInterval)
    (hlt : j * restartInterval + r < i + 1) (hx : items[j * restartInterval + r]? = some x) :
    Marks buckets (hash64 (E.key x)) j := by
  rcases Nat.lt_succ_iff_lt_or_eq.1 hlt with hbefore | rfl
  · exact hkeep _ _ (h.marks hcount (by omega) j r x hr hbefore hx)
  · obtain rfl : j = k := interval_unique (by omega) (by omega) hk hk'
    obtain rfl := Option.some.inj (ha.symm.trans hx)
    exact hnew hcount hmax

theorem write (h : After E hash64 restartInterval items bucketCount e i m) (hpos : 0 < restartInterval)
    (ha : items[i]? = some a) :
    ∃ m', After E hash64 restartInterval items bucketCount (e.write E hash64 restartInterval a)
      (i + 1) m' := by
  have hle := h.le
  have hlt := h.lt
  obtain ⟨buckets, hlen, hwrite, hkeep, hnew⟩ := Encoder.write_eq hash64 e a
  rw [hwrite]
  rcases hle.lt_or_eq with hinner | hhead
  · rw [h.writeItem_inner ha hinner] at hlen hkeep hnew ⊢
    obtain ⟨m, rfl⟩ := exists_eq_add_one_of_ne_zero (show m ≠ 0 by rintro rfl; omega)
    have hsucc : (m + 1) * restartInterval = m * restartInterval + restartInterval :=
      Nat.succ_mul m _
    refine ⟨m + 1, ⟨?_, by rw [h.itemCount], h.restartCount, hinner, by omega, h.binaryIndex,
      hlen.trans h.hashIndex, ?_, h.baseKey⟩⟩
    · rw [entriesBytes_succ, ← h.writer]
    · refine h.marks_succ ha le_rfl (by omega) (by omega) hkeep fun hcount hidx => ?_
      dsimp only at hlen hnew
      rw [h.restartCount, Nat.add_sub_cancel] at hnew
      exact hnew (by rw [hlen, h.hashIndex]; exact hcount) hidx
  · rw [h.writeItem_head hpos ha hhead] at hlen hkeep hnew ⊢
    have hsucc : (m + 1) * restartInterval = m * restartInterval + restartInterval :=
      Nat.succ_mul m _
    refine ⟨m + 1, ⟨?_, by rw [h.itemCount], rfl, by omega, by omega, ?_,
      hlen.trans h.hashIndex, ?_, fun _ => ?_⟩⟩
    · rw [entriesBytes_succ, ← h.writer]
    · rw [range_succ, map_append, ← h.binaryIndex, map_singleton, ← hhead,
        ← h.writer]
    · refine h.marks_succ ha (by omega) hhead.ge (by omega) hkeep fun hcount hidx => ?_
      dsimp only at hlen hnew
      rw [Nat.add_sub_cancel] at hnew
      exact hnew (by rw [hlen, h.hashIndex]; exact hcount) hidx
    · rw [Nat.add_sub_cancel, ← hhead, keyAt, ha]
      rfl

end Encoder.After

variable (E hash64 restartInterval items) in
theorem exists_after (hpos : 0 < restartInterval) (bucketCount : ℕ) (firstKey : Bytes)
    (hi : i ≤ items.length) :
    ∃ m, Encoder.After E hash64 restartInterval items bucketCount
      ((items.take i).foldl (Encoder.write E hash64 restartInterval)
        (Encoder.new bucketCount firstKey)) i m := by
  induction i with
  | zero =>
    refine ⟨0, ⟨rfl, rfl, rfl, zero_le _, by omega, rfl, ?_, ?_, nofun⟩⟩
    · simp [Encoder.new]
    · exact fun _ _ j r a _ hlt => absurd hlt (not_lt_zero _)
  | succ i ih =>
    obtain ⟨m, hm⟩ := ih (by omega)
    have ha : items[i]? = some items[i] := List.getElem?_eq_getElem hi
    rw [take_add_one, ha, Option.toList_some, foldl_append]
    exact hm.write hpos ha

/-- No bucket names an interval that has not been opened. -/
def Encoder.Named (e : Encoder) : Prop :=
  ∀ v ∈ e.hashIndex, v = markerFree ∨ v = markerConflict ∨ v.val < e.restartCount

variable {e : Encoder}

theorem Encoder.Named.writeItem (h : e.Named) (a : α) :
    (e.writeItem E restartInterval a).Named := by
  unfold Encoder.writeItem
  split_ifs
  · exact fun v hv => (h v hv).imp_right (Or.imp_right lt_succ_of_lt)
  · exact fun v hv => (h v hv).imp_right (Or.imp_right lt_succ_of_lt)
  · exact h

theorem Encoder.Named.write (h : e.Named) (a : α)
    (hopen : 0 < (e.writeItem E restartInterval a).restartCount) :
    (e.write E hash64 restartInterval a).Named := by
  have hitem : (e.writeItem E restartInterval a).Named := h.writeItem a
  unfold Encoder.write
  generalize e.writeItem E restartInterval a = e' at hopen hitem ⊢
  dsimp only
  split_ifs with hset
  · have hval : (Fin.ofNat 256 (e'.restartCount - 1)).val = e'.restartCount - 1 :=
      mod_eq_of_lt (hset.2.trans (by decide))
    intro v hv
    obtain ⟨i, hi⟩ := mem_iff_getElem?.1 hv
    dsimp only at hi ⊢
    rw [setBucket, getElem?_modify] at hi
    obtain ⟨w, hw, rfl⟩ := Option.map_eq_some_iff.1 hi
    have hold := hitem w (mem_of_getElem? hw)
    split_ifs with hbucket
    · unfold nextMarker
      split_ifs
      · exact hold
      · exact .inr (.inr (by omega))
      · exact hold
      · exact .inr (.inl rfl)
    · exact hold
  · exact hitem

variable (E hash64 restartInterval items) in
theorem named_take (hpos : 0 < restartInterval) (bucketCount : ℕ) (firstKey : Bytes)
    (hi : i ≤ items.length) :
    ((items.take i).foldl (Encoder.write E hash64 restartInterval)
      (Encoder.new bucketCount firstKey)).Named := by
  induction i with
  | zero => exact fun v hv => .inl (eq_of_mem_replicate hv)
  | succ i ih =>
    obtain ⟨m, hm⟩ := exists_after E hash64 restartInterval items hpos bucketCount firstKey hi
    have ha : items[i]? = some items[i] := List.getElem?_eq_getElem hi
    rw [take_add_one, ha, Option.toList_some, foldl_append] at hm ⊢
    apply Encoder.Named.write (ih (by omega))
    -- an item has been written, so an interval has been opened
    obtain ⟨buckets, -, hwrite, -⟩ := Encoder.write_eq hash64
      ((items.take i).foldl (Encoder.write E hash64 restartInterval)
        (Encoder.new bucketCount firstKey)) items[i]
    have hcount := hm.restartCount
    have hle := hm.le
    rw [foldl_cons, foldl_nil, hwrite] at hcount
    dsimp only at hcount
    rcases Nat.eq_zero_or_pos m with rfl | hm
    · omega
    · omega

def Encoder.trailer (restartInterval : ℕ) (e : Encoder) (hashed : Bool) : TrailerFields where
  restartInterval := restartInterval
  stepSize := pointerSize e.binaryIndex
  binaryIndexLen := e.binaryIndex.length
  binaryIndexOffset := e.writer.length + 1
  hashIndexLen := if hashed then e.hashIndex.length else 0
  hashIndexOffset := if hashed then e.writer.length + 1 + (writeIndex e.binaryIndex).length else 0

theorem pointerSize_cases (pointers : List ℕ) :
    pointerSize pointers = 2 ∨ pointerSize pointers = 4 := by
  rw [pointerSize]
  split_ifs
  · exact .inl rfl
  · exact .inr rfl

theorem writeIndex_length (pointers : List ℕ) :
    (writeIndex pointers).length = pointers.length * pointerSize pointers := by
  simp [writeIndex, length_flatMap]

def Encoder.hashed (e : Encoder) : Bool :=
  0 < e.hashIndex.length && e.binaryIndex.length ≤ maxPointersForHashIndex

theorem Encoder.hashed_iff : e.hashed = true ↔
    0 < e.hashIndex.length ∧ e.binaryIndex.length ≤ maxPointersForHashIndex := by
  simp [hashed]

/-- What the trailer says of the parts of the block is not cut off. -/
structure Encoder.Addressable (e : Encoder) : Prop where
  index_pos : 0 < e.binaryIndex.length
  entries : e.writer.length + 1 < 2 ^ 32
  index : e.binaryIndex.length < 2 ^ 32
  hash : e.hashed = true → e.writer.length + 1 + (writeIndex e.binaryIndex).length < 2 ^ 32

theorem Encoder.finish_eq (h : e.Addressable) :
    e.finish restartInterval = e.writer ++ trailerStartMarker :: (writeIndex e.binaryIndex ++
      ((if e.hashed then e.hashIndex else []) ++
        (e.trailer restartInterval e.hashed).write e.itemCount)) := by
  have hoffset : (e.writer.length + 1) % 2 ^ 32 = e.writer.length + 1 := mod_eq_of_lt h.entries
  rw [finish, trailer, ← hashed]
  simp only [List.length_append, length_singleton, hoffset]
  cases hhashed : e.hashed with
  | true =>
    have hpos : 0 < e.writer.length + 1 + (writeIndex e.binaryIndex).length := by omega
    simp only [mod_eq_of_lt (h.hash hhashed), if_true, if_pos hpos]
    simp
  | false => simp

theorem Encoder.le_finish_length (restartInterval : ℕ) (e : Encoder) :
    e.writer.length + 1 + (writeIndex e.binaryIndex).length ≤
      (e.finish restartInterval).length := by
  rw [finish]
  split_ifs <;> simp only [List.length_append, length_singleton] <;> omega

/-- All fields fit the bytes the trailer has for them. -/
structure TrailerFields.Fits (t : TrailerFields) : Prop where
  restartInterval : t.restartInterval < 256 ^ 1
  stepSize : t.stepSize < 256 ^ 1
  binaryIndexLen : t.binaryIndexLen < 256 ^ 4
  binaryIndexOffset : t.binaryIndexOffset < 256 ^ 4
  hashIndexLen : t.hashIndexLen < 256 ^ 4
  hashIndexOffset : t.hashIndexOffset < 256 ^ 4

theorem TrailerFields.write_length (t : TrailerFields) (itemCount : ℕ) :
    (t.write itemCount).length = trailerSize := by
  simp [TrailerFields.write, trailerSize]

variable {t : TrailerFields}

theorem readTrailer_write (h : t.Fits) (itemCount : ℕ) :
    ∃ rest, readTrailer.run (t.write itemCount) = some (t, rest) := by
  have hreads : Reads readTrailer _ t := (reads_encodeLe h.restartInterval).bind
    ((reads_encodeLe h.stepSize).bind ((reads_encodeLe h.binaryIndexLen).bind
      ((reads_encodeLe h.binaryIndexOffset).bind ((reads_encodeLe h.hashIndexLen).bind
        (reads_encodeLe h.hashIndexOffset).map))))
  exact ⟨_, hreads _⟩

theorem entriesBytes_length_mono (h : i ≤ j) :
    (entriesBytes E restartInterval items i).length ≤
      (entriesBytes E restartInterval items j).length := by
  induction j, h using le_induction with
  | base => exact le_rfl
  | succ j _ ih =>
    rw [entriesBytes_succ, List.length_append]
    omega

variable (E restartInterval) in
theorem at_item (ha : items[i]? = some a) (rest : Bytes) :
    At (entriesBytes E restartInterval items items.length ++ rest)
        (entriesBytes E restartInterval items i).length (entryBytes E restartInterval items i) ∧
      (entriesBytes E restartInterval items i).length +
        (entryBytes E restartInterval items i).length ≤
          (entriesBytes E restartInterval items items.length).length := by
  obtain ⟨hi, -⟩ := List.getElem?_eq_some_iff.1 ha
  refine ⟨at_entryBytes E restartInterval items hi rest, ?_⟩
  rw [← List.length_append, ← entriesBytes_succ]
  exact entriesBytes_length_mono hi

variable {pointers : List ℕ}

theorem lt_pointerSize (h32 : ∀ p ∈ pointers, p < 2 ^ 32)
    (hlast : ∀ p ∈ pointers, p ≤ pointers.getLast?.getD 0) :
    ∀ p ∈ pointers, p < 256 ^ pointerSize pointers := by
  intro p hp
  have h1 := h32 p hp
  have h2 := hlast p hp
  rw [pointerSize]
  split_ifs <;> omega

theorem readPointer_eq {data : Bytes} {idx p : ℕ}
    (hat : At data t.binaryIndexOffset (writeIndex pointers))
    (hstep : t.stepSize = pointerSize pointers) (hget : pointers[idx]? = some p)
    (hfits : p < 256 ^ pointerSize pointers) : readPointer data t idx = p := by
  have hp : At data (t.binaryIndexOffset + idx * pointerSize pointers)
      (encodeLe (pointerSize pointers) p) := hat.flatMap (fun _ => encodeLe_length _ _) hget
  obtain ⟨rest, hdrop, -⟩ := hp.drop_eq
  rw [readPointer, hstep, hdrop, decodeLe_encodeLe hfits]
  rfl

section Finish

variable (e : Encoder) (hashed : Bool)

def Encoder.body : Bytes :=
  e.writer ++ trailerStartMarker :: (writeIndex e.binaryIndex ++ if hashed then e.hashIndex else [])

theorem Encoder.body_length : (e.body hashed).length =
    e.writer.length + 1 + (writeIndex e.binaryIndex).length +
      (if hashed then e.hashIndex.length else 0) := by
  cases hashed with
  | true =>
    simp only [body, List.length_append, length_cons, if_true]
    omega
  | false =>
    simp only [body, List.length_append, length_cons, Bool.false_eq_true, if_false,
      length_nil]
    omega

theorem pointerSize_lt (pointers : List ℕ) : pointerSize pointers < 256 ^ 1 := by
  rcases pointerSize_cases pointers with h | h <;> rw [h] <;> decide

variable {e hashed}

theorem Encoder.trailer_fits (h : e.Addressable) (hinterval : restartInterval < 256)
    (hbuckets : e.hashIndex.length < 2 ^ 32) : (e.trailer restartInterval e.hashed).Fits := by
  refine ⟨hinterval, pointerSize_lt _, h.index, h.entries, ?_, ?_⟩
  · change (if e.hashed then e.hashIndex.length else 0) < 256 ^ 4
    split_ifs <;> omega
  · change (if e.hashed then _ else 0) < 256 ^ 4
    split_ifs with hhashed
    · exact h.hash hhashed
    · decide

theorem Encoder.trailer_valid (hpos : 0 < restartInterval) :
    (e.trailer restartInterval hashed).valid = true := by
  have hne : restartInterval ≠ 0 := by omega
  simpa [TrailerFields.valid, trailer, hne] using pointerSize_cases e.binaryIndex

theorem Encoder.trailer_bounds (hindex : 0 < e.binaryIndex.length)
    (hhashed : hashed = true → 0 < e.hashIndex.length) :
    (e.trailer restartInterval hashed).bounds (e.body hashed).length = true := by
  have hne : e.binaryIndex.length ≠ 0 := by omega
  have hlen := writeIndex_length e.binaryIndex
  rw [body_length]
  cases hashed with
  | true =>
    have hbuckets : e.hashIndex.length ≠ 0 := by have := hhashed rfl; omega
    simp [TrailerFields.bounds, trailer, hne, hbuckets, hlen]
  | false => simp [TrailerFields.bounds, trailer, hne, hlen]

theorem openBlock_finish {κ : Type} (D : Decodable α κ) (h : e.Addressable)
    (hpos : 0 < restartInterval) (hinterval : restartInterval < 256)
    (hfits : ∀ p ∈ e.binaryIndex, p < 256 ^ pointerSize e.binaryIndex)
    (hbuckets : e.hashIndex.length < 2 ^ 32) :
    openBlock D (e.finish restartInterval) =
      some (D.block (e.finish restartInterval) e.writer.length restartInterval
        e.binaryIndex (if e.hashed then e.hashIndex else [])) := by
  have hfinish := @Encoder.finish_eq restartInterval e h
  generalize ht : e.trailer restartInterval e.hashed = t at hfinish
  have hfinish' : e.finish restartInterval = e.body e.hashed ++ t.write e.itemCount := by
    simp only [hfinish, Encoder.body, append_assoc, cons_append]
  have hlength : (e.finish restartInterval).length - trailerSize = (e.body e.hashed).length := by
    rw [hfinish', List.length_append, TrailerFields.write_length, Nat.add_sub_cancel]
  have hlong : ¬(e.finish restartInterval).length < trailerSize := by
    rw [hfinish', List.length_append, TrailerFields.write_length]
    omega
  obtain ⟨rest, hread⟩ :=
    readTrailer_write (ht ▸ Encoder.trailer_fits h hinterval hbuckets : t.Fits) e.itemCount
  have hmarker : (e.finish restartInterval)[t.binaryIndexOffset - 1]? =
      some trailerStartMarker := by
    rw [hfinish, ← ht]
    simp [Encoder.trailer]
  have hat : At (e.finish restartInterval) t.binaryIndexOffset (writeIndex e.binaryIndex) := by
    rw [hfinish, ← ht]
    simpa [Encoder.trailer] using at_append (e.writer ++ [trailerStartMarker])
      (writeIndex e.binaryIndex) _
  have hpointers : (List.range e.binaryIndex.length).map
      (readPointer (e.finish restartInterval) t) = e.binaryIndex := by
    apply ext_getElem (by simp)
    intro i h1 h2
    rw [getElem_map, getElem_range]
    exact readPointer_eq hat (ht ▸ rfl) (List.getElem?_eq_getElem h2)
      (hfits _ (getElem_mem h2))
  have hbuckets' : slice (e.finish restartInterval) t.hashIndexOffset
      (t.hashIndexOffset + t.hashIndexLen) = if e.hashed then e.hashIndex else [] := by
    rw [hfinish, ← ht]
    cases e.hashed with
    | true =>
      have hat := at_append (e.writer ++ trailerStartMarker :: writeIndex e.binaryIndex) e.hashIndex
        ((e.trailer restartInterval true).write e.itemCount)
      have hslice := hat.slice
      simpa [Encoder.trailer, add_comm, add_left_comm, add_assoc] using hslice
    | false => rfl
  have hread' : readTrailer.run ((e.finish restartInterval).drop (e.body e.hashed).length) =
      some (t, rest) := by
    rw [hfinish', drop_left, hread]
  have hvalid : t.valid = true := ht ▸ Encoder.trailer_valid hpos
  have hbounds : t.bounds (e.body e.hashed).length = true :=
    ht ▸ Encoder.trailer_bounds h.index_pos fun hhashed => (Encoder.hashed_iff.1 hhashed).1
  rw [openBlock, if_neg hlong, hlength, hread']
  simp only [hvalid, hbounds, hmarker, BEq.rfl, Bool.and_true, if_true]
  rw [hbuckets']
  subst ht
  exact congrArg (fun index => some (D.block _ _ _ index _)) hpointers

/-- The trailer as it is written, with offsets and counts cut off to four bytes. -/
def Encoder.cutTrailer (restartInterval : ℕ) (e : Encoder) : TrailerFields :=
  let hashOffset :=
    if e.hashed then (e.writer.length + 1 + (writeIndex e.binaryIndex).length) % 2 ^ 32 else 0
  ⟨restartInterval, pointerSize e.binaryIndex, e.binaryIndex.length % 2 ^ 32,
    (e.writer.length + 1) % 2 ^ 32, if 0 < hashOffset then e.hashIndex.length else 0, hashOffset⟩

theorem Encoder.finish_eq_cutTrailer (restartInterval : ℕ) (e : Encoder) :
    e.finish restartInterval =
      e.body e.hashed ++ (e.cutTrailer restartInterval).write e.itemCount := by
  have hindex : encodeLe 4 (e.binaryIndex.length % 2 ^ 32) = encodeLe 4 e.binaryIndex.length :=
    encodeLe_mod 4 _
  rw [finish, ← hashed]
  simp only [body, cutTrailer, TrailerFields.write, hindex, List.length_append,
    length_singleton]
  cases e.hashed <;> simp

theorem Encoder.addressable_of_bounds
    (h : (e.cutTrailer restartInterval).bounds (e.body e.hashed).length = true) :
    e.Addressable := by
  have hlen := writeIndex_length e.binaryIndex
  have hbody := e.body_length e.hashed
  have hstep := pointerSize_cases e.binaryIndex
  simp only [TrailerFields.bounds, cutTrailer, Bool.and_eq_true, bne_iff_ne, beq_iff_eq,
    Bool.or_eq_true] at h
  obtain ⟨hne, -, -, hhash, -, hindex⟩ := h
  have hpos : 0 < e.binaryIndex.length := by
    rcases Nat.eq_zero_or_pos e.binaryIndex.length with hzero | hpos
    · rw [hzero] at hne
      exact absurd rfl hne
    · exact hpos
  cases hhashed : e.hashed with
  | false =>
    simp only [hhashed, Bool.false_eq_true, if_false, lt_irrefl] at hbody hindex
    rw [hbody, hlen] at hindex
    refine ⟨hpos, ?_, ?_, fun h => absurd h (by rw [hhashed]; exact Bool.false_ne_true)⟩
    · rcases hstep with hstep | hstep <;> rw [hstep] at hindex <;> omega
    · rcases hstep with hstep | hstep <;> rw [hstep] at hindex <;> omega
  | true =>
    obtain ⟨hbuckets, hmax⟩ := hashed_iff.1 hhashed
    have hsmall : e.binaryIndex.length < 2 ^ 32 := hmax.trans_lt (by decide)
    simp only [hhashed, if_true] at hbody hindex hhash
    rw [hbody] at hindex hhash
    generalize hcut : (e.writer.length + 1 + (writeIndex e.binaryIndex).length) % 2 ^ 32 = offset
      at hindex hhash
    rcases Nat.eq_zero_or_pos offset with rfl | hoffset
    · -- the buckets are there, but the trailer does not say so
      rw [if_neg (lt_irrefl 0)] at hindex
      rcases hstep with hstep | hstep <;> rw [hstep] at hindex hlen <;> omega
    · rw [if_pos hoffset] at hhash
      have hsize : e.writer.length + 1 + (writeIndex e.binaryIndex).length < 2 ^ 32 := by
        have := hhash.resolve_left (by omega)
        omega
      exact ⟨hpos, by omega, hsmall, fun _ => hsize⟩

theorem openBlock_finish_none {κ : Type} (D : Decodable α κ) (hinterval : restartInterval < 256)
    (hbuckets : e.hashIndex.length < 2 ^ 32) (h : ¬e.Addressable) :
    openBlock D (e.finish restartInterval) = none := by
  have hfinish := e.finish_eq_cutTrailer restartInterval
  have hfits : (e.cutTrailer restartInterval).Fits := by
    refine ⟨hinterval, pointerSize_lt _, mod_lt _ (by decide), mod_lt _ (by decide), ?_, ?_⟩
    · dsimp only [Encoder.cutTrailer]
      split_ifs <;> omega
    · dsimp only [Encoder.cutTrailer]
      split_ifs <;> omega
  have hlength : (e.finish restartInterval).length - trailerSize = (e.body e.hashed).length := by
    rw [hfinish, List.length_append, TrailerFields.write_length, Nat.add_sub_cancel]
  have hbounds : (e.cutTrailer restartInterval).bounds (e.body e.hashed).length = false :=
    Bool.eq_false_iff.2 fun hb => h (Encoder.addressable_of_bounds hb)
  obtain ⟨rest, hread⟩ := readTrailer_write hfits e.itemCount
  rw [openBlock, hlength, hfinish, drop_left, hread]
  simp only [hbounds, Bool.and_false, Bool.false_and, Bool.false_eq_true, if_false, ite_self]

end Finish

section Laid

variable {κ : Type} {bucketCount : ℕ} {e : Encoder} {m : ℕ}

namespace Encoder.After

theorem unique {bucketCount' m' i : ℕ} {e' : Encoder}
    (h : After E hash64 restartInterval items bucketCount e i m)
    (h' : After E hash64 restartInterval items bucketCount' e' i m') : m = m' := by
  have h1 : m * restartInterval < (m' + 1) * restartInterval := by
    rw [Nat.succ_mul]
    exact h.lt.trans_le (Nat.add_le_add_right h'.le _)
  have h2 : m' * restartInterval < (m + 1) * restartInterval := by
    rw [Nat.succ_mul]
    exact h'.lt.trans_le (Nat.add_le_add_right h.le _)
  have h1' := Nat.lt_of_mul_lt_mul_right h1
  have h2' := Nat.lt_of_mul_lt_mul_right h2
  omega

variable (h : After E hash64 restartInterval items bucketCount e items.length m)
include h

theorem lt_iff {j : ℕ} :
    j < m ↔ j * restartInterval < items.length := by
  constructor
  · intro hj
    have hle : (j + 1) * restartInterval ≤ m * restartInterval := mul_le_mul_right _ hj
    have hlt := h.lt
    rw [Nat.succ_mul] at hle
    omega
  · intro hj
    exact Nat.lt_of_mul_lt_mul_right (hj.trans_le h.le)

theorem index_length : e.binaryIndex.length = m := by
  rw [h.binaryIndex, length_map, length_range]

theorem index_eq (hsize : e.writer.length < 2 ^ 32) :
    e.binaryIndex = (List.range m).map fun j =>
      (entriesBytes E restartInterval items (j * restartInterval)).length := by
  rw [h.binaryIndex]
  apply map_congr_left
  intro j hj
  have hle := (h.lt_iff.1 (mem_range.1 hj)).le
  apply mod_eq_of_lt
  rw [h.writer] at hsize
  exact (entriesBytes_length_mono hle).trans_lt hsize

theorem pointers_fit (hsize : e.writer.length < 2 ^ 32) :
    ∀ p ∈ e.binaryIndex, p < 256 ^ pointerSize e.binaryIndex := by
  have hindex := h.index_eq hsize
  apply lt_pointerSize
  · intro p hp
    rw [h.binaryIndex] at hp
    obtain ⟨j, -, rfl⟩ := mem_map.1 hp
    exact mod_lt _ (by decide)
  · intro p hp
    rw [hindex] at hp ⊢
    obtain ⟨j, hj, rfl⟩ := mem_map.1 hp
    obtain ⟨m, rfl⟩ := exists_eq_add_one_of_ne_zero (ne_zero_of_lt (mem_range.1 hj))
    rw [range_succ, map_append, map_singleton, getLast?_concat]
    exact entriesBytes_length_mono
      (mul_le_mul_right _ (le_of_lt_succ (mem_range.1 hj)))

end Encoder.After

structure Codes (E : Encodable α) (D : Decodable α κ) (head : α → κ) (Fit : α → Prop) :
    Prop where
  full_pos : ∀ a, 0 < (E.encodeFull a).length
  truncated_pos : ∀ a n, 0 < (E.encodeTruncated a n).length
  full : ∀ {data : Bytes} {entriesEnd pos : ℕ} {a : α}, Fit a →
    At data pos (E.encodeFull a) → pos + (E.encodeFull a).length ≤ entriesEnd →
    ∃ start, D.parseFull data entriesEnd pos =
        some ⟨a, ⟨start, start + (E.key a).length⟩, pos + (E.encodeFull a).length⟩ ∧
      At data start (E.key a) ∧ start + (E.key a).length ≤ pos + (E.encodeFull a).length
  restartKey : ∀ {data : Bytes} {entriesEnd pos : ℕ} {a : α}, Fit a →
    At data pos (E.encodeFull a) → pos + (E.encodeFull a).length ≤ entriesEnd →
    D.parseRestartKey data entriesEnd pos = some (head a)
  truncated : ∀ {data : Bytes} {entriesEnd pos start : ℕ} {base : Bytes} {a : α}, Fit a →
    At data start base → start + base.length ≤ pos →
    At data pos (E.encodeTruncated a (longestSharedPrefixLength base (E.key a))) →
    pos + (E.encodeTruncated a (longestSharedPrefixLength base (E.key a))).length ≤ entriesEnd →
    ∃ key, D.parseTruncated data entriesEnd pos ⟨start, start + base.length⟩ =
      some ⟨a, key,
        pos + (E.encodeTruncated a (longestSharedPrefixLength base (E.key a))).length⟩
  full_marker : ∀ {data : Bytes} {entriesEnd pos : ℕ}, data[pos]? = some trailerStartMarker →
    D.parseFull data entriesEnd pos = none
  truncated_marker : ∀ {data : Bytes} {entriesEnd pos : ℕ} {base : SliceIndexes},
    data[pos]? = some trailerStartMarker → D.parseTruncated data entriesEnd pos base = none

namespace Codes

variable {D : Decodable α κ} {head : α → κ} {Fit : α → Prop} (hc : Codes E D head Fit)
  (hfit : ∀ a ∈ items, Fit a) (rest : Bytes)
include hc

theorem entryBytes_pos {i : ℕ} (hi : i < items.length) :
    0 < (entryBytes E restartInterval items i).length := by
  rw [entryBytes, List.getElem?_eq_getElem hi]
  dsimp only
  split_ifs
  · exact hc.full_pos _
  · exact hc.truncated_pos _ _

include hfit

variable (restartInterval) in
theorem exists_span (j : ℕ) : ∃ span : SliceIndexes, ∀ a, items[j * restartInterval]? = some a →
    D.parseFull (entriesBytes E restartInterval items items.length ++ trailerStartMarker :: rest)
        (entriesBytes E restartInterval items items.length).length
        (entriesBytes E restartInterval items (j * restartInterval)).length =
      some ⟨a, span, (entriesBytes E restartInterval items (j * restartInterval + 1)).length⟩ ∧
    At (entriesBytes E restartInterval items items.length ++ trailerStartMarker :: rest)
      span.start (E.key a) ∧
    span.stop = span.start + (E.key a).length ∧
    span.stop ≤ (entriesBytes E restartInterval items (j * restartInterval + 1)).length := by
  cases ha : items[j * restartInterval]? with
  | none => exact ⟨⟨0, 0⟩, fun _ h => nomatch h⟩
  | some a =>
    obtain ⟨hat, hend⟩ := at_item E restartInterval ha (trailerStartMarker :: rest)
    rw [entryBytes_head ha] at hat hend
    obtain ⟨start, hparse, hkey, hle⟩ := hc.full (hfit a (mem_of_getElem? ha)) hat hend
    refine ⟨⟨start, start + (E.key a).length⟩, ?_⟩
    rintro _ ⟨⟩
    rw [entriesBytes_succ, List.length_append, entryBytes_head ha]
    exact ⟨hparse, hkey, rfl, hle⟩

theorem parseTruncated_item {j r : ℕ} {a : α} {span : SliceIndexes} (hr : 0 < r)
    (hlt : r < restartInterval) (ha : items[j * restartInterval + r]? = some a)
    (hspan : ∀ a, items[j * restartInterval]? = some a →
      At (entriesBytes E restartInterval items items.length ++ trailerStartMarker :: rest)
        span.start (E.key a) ∧
      span.stop = span.start + (E.key a).length ∧
      span.stop ≤ (entriesBytes E restartInterval items (j * restartInterval + 1)).length) :
    ∃ key, D.parseTruncated
        (entriesBytes E restartInterval items items.length ++ trailerStartMarker :: rest)
        (entriesBytes E restartInterval items items.length).length
        (entriesBytes E restartInterval items (j * restartInterval + r)).length span =
      some ⟨a, key,
        (entriesBytes E restartInterval items (j * restartInterval + r + 1)).length⟩ := by
  obtain ⟨hat, hend⟩ := at_item E restartInterval ha (trailerStartMarker :: rest)
  obtain ⟨hin, -⟩ := List.getElem?_eq_some_iff.1 ha
  have hlow : j * restartInterval < items.length := by omega
  obtain ⟨hkey, hstop, hle⟩ := hspan _ (List.getElem?_eq_getElem hlow)
  have hbase : keyAt E items (j * restartInterval) = E.key items[j * restartInterval] := by
    rw [keyAt, List.getElem?_eq_getElem hlow]
    rfl
  have hbefore : (entriesBytes E restartInterval items (j * restartInterval + 1)).length ≤
      (entriesBytes E restartInterval items (j * restartInterval + r)).length :=
    entriesBytes_length_mono (by omega)
  rw [entryBytes_inner hr hlt ha, hbase] at hat hend
  obtain ⟨key, hparse⟩ := hc.truncated (hfit a (mem_of_getElem? ha)) hkey
    (by omega) hat hend
  refine ⟨key, ?_⟩
  rw [← hstop] at hparse
  rw [entriesBytes_succ, List.length_append, entryBytes_inner hr hlt ha, hbase]
  exact hparse

theorem nonempty_layout (hpos : 0 < restartInterval) (hitems : 0 < items.length)
    (h : Encoder.After E hash64 restartInterval items bucketCount e items.length m)
    (hsize : e.writer.length < 2 ^ 32) (hashIndex : Bytes) :
    Nonempty (Layout (D.block
      (entriesBytes E restartInterval items items.length ++ trailerStartMarker :: rest)
      (entriesBytes E restartInterval items items.length).length restartInterval e.binaryIndex
      hashIndex) head items) := by
  choose span hspan using hc.exists_span restartInterval hfit rest
  refine ⟨{
    off := fun i => (entriesBytes E restartInterval items i).length
    span := span
    items_pos := hitems
    interval_pos := hpos
    off_zero := rfl
    off_lt := ?_
    off_end := rfl
    end_lt := ?_
    index_length := fun j => ?_
    index_get := fun j hj => ?_
    full := fun j a ha => (hspan j a ha).1
    truncated := fun j r a hr hlt ha =>
      hc.parseTruncated_item hfit rest hr hlt ha fun a ha => (hspan j a ha).2
    restartKey := fun j a ha => ?_
    full_end := hc.full_marker (by simp [Decodable.block])
    truncated_end := fun base => hc.truncated_marker (by simp [Decodable.block]) }⟩
  · intro i hi
    rw [entriesBytes_succ, List.length_append]
    exact Nat.lt_add_of_pos_right (hc.entryBytes_pos hi)
  · dsimp only [Decodable.block]
    rw [List.length_append, length_cons]
    omega
  · dsimp only [Decodable.block]
    rw [h.index_length]
    exact h.lt_iff
  · dsimp only [Decodable.block] at hj ⊢
    rw [h.index_eq hsize, getElem?_map, getElem?_range (h.lt_iff.2 hj)]
    rfl
  · dsimp only [Decodable.block] at ha ⊢
    obtain ⟨hat, hend⟩ := at_item E restartInterval ha (trailerStartMarker :: rest)
    rw [entryBytes_head ha] at hat hend
    exact hc.restartKey (hfit a (mem_of_getElem? ha)) hat hend

theorem openBlock_finish_spec (hpos : 0 < restartInterval) (hinterval : restartInterval < 256)
    (h : Encoder.After E hash64 restartInterval items bucketCount e items.length m)
    (hnamed : e.Named) (hbuckets : bucketCount < 2 ^ 32) (haddr : e.Addressable) :
    ∃ b, openBlock D (e.finish restartInterval) = some b ∧ Nonempty (Layout b head items) ∧
      b.HashIndexed (fun a => hash64 (E.key a)) items ∧ b.NamesIntervals := by
  have hlt : e.writer.length < 2 ^ 32 := lt_of_succ_lt haddr.entries
  have hitems : 0 < items.length := by
    have := h.lt_iff.1 (h.index_length ▸ haddr.index_pos)
    omega
  refine ⟨_, openBlock_finish D haddr hpos hinterval (h.pointers_fit hlt)
    (h.hashIndex.trans_lt hbuckets),
    ?_, ?_, ?_⟩
  · rw [Encoder.finish_eq haddr, h.writer]
    exact hc.nonempty_layout hfit _ hpos hitems h hlt _
  · cases hhashed : e.hashed with
    | false => exact .inl rfl
    | true =>
      obtain ⟨hlen, hmax⟩ := Encoder.hashed_iff.1 hhashed
      rw [h.index_length] at hmax
      exact .inr fun j r a hr ha => h.marks (h.hashIndex ▸ hlen) hmax j r a hr
        (List.getElem?_eq_some_iff.1 ha).1 ha
  · intro v hv
    change v = markerFree ∨ v = markerConflict ∨ v.val < e.binaryIndex.length
    rw [h.index_length, ← h.restartCount]
    cases hhashed : e.hashed with
    | false =>
      rw [hhashed] at hv
      exact absurd hv not_mem_nil
    | true =>
      rw [hhashed] at hv
      exact hnamed v hv

theorem openBlock_encodeInto_some (hash64 : Bytes → ℕ) (hpos : 0 < restartInterval)
    (hinterval : restartInterval < 256) (hbuckets : bucketCount < 2 ^ 32) {b : EncodedBlock α κ}
    (hopen : openBlock D (encodeInto E hash64 restartInterval bucketCount items) = some b) :
    Nonempty (Layout b head items) ∧ b.HashIndexed (fun a => hash64 (E.key a)) items ∧
      b.NamesIntervals := by
  obtain ⟨m, h⟩ := exists_after E hash64 restartInterval items hpos bucketCount
    ((items.head?.map E.key).getD []) (le_refl items.length)
  have hnamed := named_take E hash64 restartInterval items hpos bucketCount
    ((items.head?.map E.key).getD []) (le_refl items.length)
  rw [encodeInto] at hopen
  rw [take_length] at h hnamed
  by_cases haddr : (items.foldl (Encoder.write E hash64 restartInterval)
      (Encoder.new bucketCount ((items.head?.map E.key).getD []))).Addressable
  · obtain ⟨b', hopen', hspec⟩ := hc.openBlock_finish_spec hfit hpos hinterval h hnamed hbuckets
      haddr
    obtain rfl := Option.some.inj (hopen'.symm.trans hopen)
    exact hspec
  · rw [openBlock_finish_none D hinterval (h.hashIndex.trans_lt hbuckets) haddr] at hopen
    cases hopen

theorem openBlock_encodeInto (hash64 : Bytes → ℕ) (hpos : 0 < restartInterval)
    (hinterval : restartInterval < 256) (hitems : items ≠ []) (hbuckets : bucketCount < 2 ^ 32)
    (hsize : (encodeInto E hash64 restartInterval 0 items).length < 2 ^ 32) :
    ∃ b, openBlock D (encodeInto E hash64 restartInterval bucketCount items) = some b ∧
      Nonempty (Layout b head items) ∧ b.HashIndexed (fun a => hash64 (E.key a)) items := by
  obtain ⟨m, h⟩ := exists_after E hash64 restartInterval items hpos bucketCount
    ((items.head?.map E.key).getD []) (le_refl items.length)
  have hnamed := named_take E hash64 restartInterval items hpos bucketCount
    ((items.head?.map E.key).getD []) (le_refl items.length)
  obtain ⟨m', h'⟩ := exists_after E hash64 restartInterval items hpos 0
    ((items.head?.map E.key).getD []) (le_refl items.length)
  obtain rfl := h.unique h'
  rw [take_length] at h h' hnamed
  have hlen := Encoder.le_finish_length restartInterval (items.foldl
    (Encoder.write E hash64 restartInterval)
    (Encoder.new 0 ((items.head?.map E.key).getD [])))
  rw [encodeInto] at hsize ⊢
  rw [h'.writer, h'.binaryIndex, ← h.writer, ← h.binaryIndex] at hlen
  generalize items.foldl (Encoder.write E hash64 restartInterval)
    (Encoder.new bucketCount ((items.head?.map E.key).getD [])) = e at h hlen hnamed ⊢
  have hsize' : e.writer.length + 1 + (writeIndex e.binaryIndex).length < 2 ^ 32 := by omega
  have hindex : 0 < e.binaryIndex.length := by
    rw [h.index_length, h.lt_iff, zero_mul]
    exact length_pos_iff.2 hitems
  have hmul : e.binaryIndex.length ≤ (writeIndex e.binaryIndex).length := by
    rw [writeIndex_length]
    rcases pointerSize_cases e.binaryIndex with hstep | hstep <;> rw [hstep] <;> omega
  obtain ⟨b, hopen, hlayout, hhash, -⟩ := hc.openBlock_finish_spec hfit hpos hinterval h hnamed
    hbuckets ⟨hindex, by omega, by omega, fun _ => hsize'⟩
  exact ⟨b, hopen, hlayout, hhash⟩

end Codes

end Laid

end Written

end LsmTree
