import LsmTree.Table.IndexCodec

/-! The partitioned filter of a table. -/
namespace LsmTree

open Codec DoubleEnded StoredHandle Option

structure FilterPolicy (F : Type) where
  estimatedFilterSize : ℕ → ℕ
  /-- `build_burr_filter_bytes`; `none` for an error, and for no bytes, which is one too. -/
  build : List ℕ → Option F
  /-- The size of the block that holds the filter. -/
  blockSize : F → ℕ
  maybeContainsHash : F → ℕ → Bool

variable {K F : Type}

/-- `finalFilterBuffer` holds the blocks by their offset in the buffer. -/
structure PartitionedFilterWriter (K F : Type) where
  finalFilterBuffer : List (ℕ × F)
  tliHandles : List (StoredHandle K)
  bloomHashBuffer : List ℕ
  relativeFilePos : ℕ
  lastKey : Option K

/-- What a table has of its filter: the blocks by their place in the file, and the bytes of the
top-level index. -/
structure FilterSection (F : Type) where
  blocks : List (ℕ × F)
  tli : Bytes

inductive BloomResult where
  | skip
  | proceed
  deriving DecidableEq, Repr

namespace PartitionedFilterWriter

open RawKey (toBytes)

variable [RawKey K] (P : FilterPolicy F) (hash64 : List Byte → ℕ) (partitionSize : ℕ)

def new : PartitionedFilterWriter K F := ⟨[], [], [], 0, none⟩

def spillFilterPartition (w : PartitionedFilterWriter K F) (key : K) :
    Option (PartitionedFilterWriter K F) := do
  let filter ← P.build w.bloomHashBuffer
  pure {
    finalFilterBuffer := w.finalFilterBuffer ++ [(w.relativeFilePos, filter)]
    tliHandles := w.tliHandles ++ [⟨key, 0, w.relativeFilePos, P.blockSize filter⟩]
    bloomHashBuffer := []
    relativeFilePos := w.relativeFilePos + P.blockSize filter
    lastKey := w.lastKey }

def registerKey (w : PartitionedFilterWriter K F) (key : K) :
    Option (PartitionedFilterWriter K F) :=
  let w := { w with
    bloomHashBuffer := w.bloomHashBuffer ++ [hash64 (toBytes key)], lastKey := some key }
  if partitionSize ≤ P.estimatedFilterSize w.bloomHashBuffer.length then
    w.spillFilterPartition P key
  else some w

def shift (delta : ℕ) (h : StoredHandle K) : StoredHandle K :=
  { h with offset := h.offset + delta }

/-- What is waiting becomes the last partition. -/
def spillRest (w : PartitionedFilterWriter K F) (key : K) : Option (PartitionedFilterWriter K F) :=
  if w.bloomHashBuffer = [] then some w else w.spillFilterPartition P key

/-- The filter is written from `base` on; none is written where no key was seen. -/
def finish (base : ℕ) (w : PartitionedFilterWriter K F) : Option (Option (FilterSection F)) :=
  match w.lastKey with
  | none => some none
  | some key => do
    let w ← w.spillRest P key
    pure (some {
      blocks := w.finalFilterBuffer.map fun b => (b.1 + base, b.2)
      tli := StoredHandle.encodeInto 1 (w.tliHandles.map (shift base)) })

end PartitionedFilterWriter

section Read

variable [LinearOrder K] [RawKey K]

open RawKey (toBytes)

def maxSeqno : ℕ := 2 ^ 63 - 1

/-- The handle that `next` gives after `seek` of the index iterator. -/
def seekHandle (b : EncodedBlock (StoredHandle K) (K × ℕ)) (needle : K) :
    Option (StoredHandle K) :=
  ((Decoder.new b).resetBackCursor.seekIndex head (endsBefore needle maxSeqno)).2.next.1

/-- `check_bloom`; `none` is an error. -/
def checkBloom (P : FilterPolicy F) (hash64 : List Byte → ℕ) (filter : Option (FilterSection F))
    (key : K) : Option BloomResult :=
  match filter with
  | none => some .proceed
  | some filter => do
    let b ← openBlock decodable filter.tli
    match seekHandle b key with
    | none => pure .skip
    | some handle =>
      let block ← filter.blocks.find? fun block => decide (block.1 = handle.offset)
      if P.maybeContainsHash block.2 (hash64 (toBytes key)) then pure .proceed else pure .skip

end Read

structure FilterPartition (K F : Type) where
  keys : List K
  endKey : K
  filter : F
  offset : ℕ

namespace FilterPartition

variable [RawKey K] (P : FilterPolicy F) (hash64 : List Byte → ℕ)

open RawKey (toBytes)

omit [RawKey K] in
def handle (p : FilterPartition K F) : StoredHandle K :=
  ⟨p.endKey, 0, p.offset, P.blockSize p.filter⟩

structure Valid (p : FilterPartition K F) : Prop where
  endKey : p.keys.getLast? = some p.endKey
  filter : P.build (p.keys.map fun k => hash64 (toBytes k)) = some p.filter

end FilterPartition

namespace PartitionedFilterWriter

variable [RawKey K] (P : FilterPolicy F) (hash64 : List Byte → ℕ)

open RawKey (toBytes)

/-- The writer after it has been given `keys`: the partitions are written, and the keys of `rest`
are waiting for the next one. -/
structure Written (w : PartitionedFilterWriter K F) (keys : List K)
    (parts : List (FilterPartition K F)) (rest : List K) : Prop where
  given : keys = parts.flatMap (·.keys) ++ rest
  handles : w.tliHandles = parts.map (·.handle P)
  buffer : w.finalFilterBuffer = parts.map fun p => (p.offset, p.filter)
  hashes : w.bloomHashBuffer = rest.map fun k => hash64 (toBytes k)
  lastKey : w.lastKey = keys.getLast?
  valid : ∀ p ∈ parts, p.Valid P hash64
  below : ∀ p ∈ parts, p.offset + P.blockSize p.filter ≤ w.relativeFilePos
  ascending : parts.Pairwise fun p q => p.offset < q.offset

variable {P hash64} {w w' : PartitionedFilterWriter K F} {keys rest : List K}
  {parts : List (FilterPartition K F)} {partitionSize : ℕ}

theorem written_new : Written P hash64 (new : PartitionedFilterWriter K F) [] [] [] :=
  ⟨rfl, rfl, rfl, rfl, rfl, by simp, by simp, List.Pairwise.nil⟩

theorem Written.spill (h : Written P hash64 w keys parts rest)
    (hsize : ∀ f, 0 < P.blockSize f) {key : K} (hlast : rest.getLast? = some key)
    (hspill : w.spillFilterPartition P key = some w') :
    ∃ parts', Written P hash64 w' keys parts' [] := by
  obtain ⟨filter, hbuild, hw'⟩ := bind_eq_some_iff.1 hspill
  cases hw'
  rw [h.hashes] at hbuild
  refine ⟨parts ++ [⟨rest, key, filter, w.relativeFilePos⟩], ?_⟩
  constructor
  · simpa using h.given
  · simp [h.handles, FilterPartition.handle]
  · simp [h.buffer]
  · rfl
  · exact h.lastKey
  · intro p hp
    rcases List.mem_append.1 hp with hp | hp
    · exact h.valid p hp
    · rw [List.mem_singleton.1 hp]
      exact ⟨hlast, hbuild⟩
  · intro p hp
    dsimp only
    rcases List.mem_append.1 hp with hp | hp
    · exact (h.below p hp).trans (Nat.le_add_right _ _)
    · rw [List.mem_singleton.1 hp]
  · refine List.pairwise_append.2 ⟨h.ascending, List.pairwise_singleton _ _, fun p hp q hq => ?_⟩
    rw [List.mem_singleton.1 hq]
    have hbelow := h.below p hp
    have hpos := hsize p.filter
    dsimp only
    omega

theorem Written.register (h : Written P hash64 w keys parts rest)
    (hsize : ∀ f, 0 < P.blockSize f) {key : K}
    (hreg : w.registerKey P hash64 partitionSize key = some w') :
    ∃ parts' rest', Written P hash64 w' (keys ++ [key]) parts' rest' := by
  have hgiven : Written P hash64 { w with
      bloomHashBuffer := w.bloomHashBuffer ++ [hash64 (toBytes key)], lastKey := some key }
      (keys ++ [key]) parts (rest ++ [key]) := by
    refine ⟨?_, h.handles, h.buffer, ?_, ?_, h.valid, h.below, h.ascending⟩
    · rw [h.given, List.append_assoc]
    · simp [h.hashes]
    · simp
  unfold registerKey at hreg
  dsimp only at hreg
  split_ifs at hreg with hfull
  · obtain ⟨parts', h'⟩ := hgiven.spill hsize (List.getLast?_concat) hreg
    exact ⟨parts', [], h'⟩
  · cases hreg
    exact ⟨parts, _, hgiven⟩

/-- The run lemma: whatever keys were given, they are in the partitions or waiting. -/
theorem written_of_foldlM (hsize : ∀ f, 0 < P.blockSize f) {given : List K}
    (h : Written P hash64 w given parts rest)
    (hrun : keys.foldlM (registerKey P hash64 partitionSize) w = some w') :
    ∃ parts' rest', Written P hash64 w' (given ++ keys) parts' rest' := by
  induction keys generalizing w given parts rest with
  | nil =>
    cases hrun
    exact ⟨parts, rest, by rwa [List.append_nil]⟩
  | cons key keys ih =>
    rw [List.foldlM_cons] at hrun
    obtain ⟨w₁, hreg, hrun⟩ := bind_eq_some_iff.1 hrun
    obtain ⟨parts₁, rest₁, h₁⟩ := h.register hsize hreg
    obtain ⟨parts', rest', h'⟩ := ih h₁ hrun
    exact ⟨parts', rest', by rwa [List.append_assoc] at h'⟩

theorem Written.finish (h : Written P hash64 w keys parts rest) (hsize : ∀ f, 0 < P.blockSize f)
    {base : ℕ} {filter : Option (FilterSection F)} (hkeys : keys ≠ [])
    (hfin : w.finish P base = some filter) :
    ∃ w' parts', Written P hash64 w' keys parts' [] ∧ filter = some
      ⟨w'.finalFilterBuffer.map fun b => (b.1 + base, b.2),
        StoredHandle.encodeInto 1 (w'.tliHandles.map (shift base))⟩ := by
  obtain ⟨key, hkey⟩ := ne_none_iff_exists'.1 (mt List.getLast?_eq_none_iff.1 hkeys)
  unfold PartitionedFilterWriter.finish at hfin
  rw [h.lastKey, hkey] at hfin
  obtain ⟨w', hspilled, hfin⟩ := bind_eq_some_iff.1 hfin
  cases hfin
  unfold spillRest at hspilled
  by_cases hrest : rest = []
  · subst hrest
    rw [if_pos (show w.bloomHashBuffer = [] from h.hashes)] at hspilled
    cases hspilled
    exact ⟨w, parts, h, rfl⟩
  · have hne : w.bloomHashBuffer ≠ [] := by
      rw [h.hashes]
      simpa using hrest
    rw [if_neg hne] at hspilled
    have hlast : rest.getLast? = some key := by
      rw [h.given, List.getLast?_append_of_ne_nil _ hrest] at hkey
      exact hkey
    obtain ⟨parts', h'⟩ := h.spill hsize hlast hspilled
    exact ⟨w', parts', h', rfl⟩

end PartitionedFilterWriter

section Lookup

variable [LinearOrder K] [RawKey K] {P : FilterPolicy F} {hash64 : List Byte → ℕ}

open RawKey (toBytes)

variable {b : EncodedBlock (StoredHandle K) (K × ℕ)}

omit [RawKey K] in
theorem seekHandle_spec {before after : List (StoredHandle K)} {h : StoredHandle K}
    (L : Layout b head (before ++ h :: after))
    (hsorted : (before ++ h :: after).Pairwise fun x y => x.endKey < y.endKey)
    (hzero : ∀ x ∈ before ++ h :: after, x.seqno = 0) {needle : K}
    (hbefore : ∀ x ∈ before, x.endKey < needle) (hh : needle ≤ h.endKey) :
    seekHandle b needle = some h := by
  have hends : ∀ x ∈ before ++ h :: after,
      (endsBefore needle maxSeqno x.head = true ↔ x.endKey < needle) := by
    intro x hx
    have hlt : ¬maxSeqno ≤ x.seqno := by
      rw [hzero x hx]
      decide
    simp [head, hlt]
  have hmono : (before ++ h :: after).Pairwise fun x y =>
      endsBefore needle maxSeqno y.head = true → endsBefore needle maxSeqno x.head = true := by
    apply hsorted.imp_of_mem
    intro x y hx hy hlt hy'
    exact (hends x hx).2 (hlt.trans ((hends y hy).1 hy'))
  obtain ⟨hlowered, -⟩ := Decoder.seekIndex_spec (d := (Decoder.new b).resetBackCursor) L hmono
    (Decoder.resetBackCursor_fresh (d := Decoder.new b) L)
  have hnext := (Decoder.lowered_yieldsFront head (before ++ h :: after) _ _ hlowered).1
  have hpassed : ∀ x ∈ before, endsBefore needle maxSeqno x.head = true := fun x hx =>
    (hends x (List.mem_append_left _ hx)).2 (hbefore x hx)
  have hkept : ¬endsBefore needle maxSeqno h.head = true := fun hlt =>
    absurd ((hends h (List.mem_append_right _ List.mem_cons_self)).1 hlt) hh.not_gt
  rw [List.dropWhile_append_of_pos hpassed, List.dropWhile_cons, if_neg hkept] at hnext
  exact hnext

variable {keys : List K} {parts before after : List (FilterPartition K F)} {p : FilterPartition K F}

omit [RawKey K] in
theorem le_endKey (hs : p.keys.Pairwise (· < ·)) (hlast : p.keys.getLast? = some p.endKey) :
    p.endKey ∈ p.keys ∧ ∀ k ∈ p.keys, k ≤ p.endKey := by
  obtain ⟨front, hfront⟩ := List.getLast?_eq_some_iff.1 hlast
  rw [hfront] at hs ⊢
  refine ⟨by simp, fun k hk => ?_⟩
  rcases List.mem_append.1 hk with hk | hk
  · exact ((List.pairwise_append.1 hs).2.2 k hk _ List.mem_cons_self).le
  · exact (List.mem_singleton.1 hk).le

theorem endKeys_sorted (hs : (parts.flatMap (·.keys)).Pairwise (· < ·))
    (hvalid : ∀ p ∈ parts, p.Valid P hash64) :
    parts.Pairwise fun p q => p.endKey < q.endKey := by
  obtain ⟨hinner, houter⟩ := List.pairwise_flatMap.1 hs
  apply houter.imp_of_mem
  intro p q hp hq hlt
  have hpe := le_endKey (hinner p hp) (hvalid p hp).endKey
  have hqe := le_endKey (hinner q hq) (hvalid q hq).endKey
  exact hlt _ hpe.1 _ hqe.1

variable {base : ℕ} {key : K}

open PartitionedFilterWriter in
theorem seekHandle_partition (hs : (parts.flatMap (·.keys)).Pairwise (· < ·))
    (hvalid : ∀ p ∈ parts, p.Valid P hash64)
    (L : Layout b head ((parts.map (·.handle P)).map (shift base))) (hp : p ∈ parts)
    (hkey : key ∈ p.keys) : seekHandle b key = some (shift base (p.handle P)) := by
  obtain ⟨before, after, rfl⟩ := List.append_of_mem hp
  have hends := endKeys_sorted hs hvalid
  obtain ⟨hinner, houter⟩ := List.pairwise_flatMap.1 hs
  simp only [List.map_append, List.map_cons] at L
  apply seekHandle_spec L
  · rw [← List.map_cons, ← List.map_append, List.pairwise_map, ← List.map_cons, ← List.map_append,
      List.pairwise_map]
    exact hends
  · intro x hx
    rw [← List.map_cons, ← List.map_append, ← List.map_cons, ← List.map_append, List.map_map] at hx
    obtain ⟨q, -, rfl⟩ := List.mem_map.1 hx
    rfl
  · intro x hx
    rw [List.map_map] at hx
    obtain ⟨q, hq, rfl⟩ := List.mem_map.1 hx
    have hmem : q ∈ before ++ p :: after := List.mem_append_left _ hq
    have hqe := le_endKey (hinner q hmem) (hvalid q hmem).endKey
    exact (List.pairwise_append.1 houter).2.2 q hq p List.mem_cons_self _ hqe.1 _ hkey
  · exact (le_endKey (hinner p hp) (hvalid p hp).endKey).2 key hkey

def filterSection (P : FilterPolicy F) (base : ℕ) (parts : List (FilterPartition K F)) :
    FilterSection F where
  blocks := parts.map fun p => (p.offset + base, p.filter)
  tli := StoredHandle.encodeInto 1
    ((parts.map (·.handle P)).map (PartitionedFilterWriter.shift base))

theorem checkBloom_filterSection (hs : (parts.flatMap (·.keys)).Pairwise (· < ·))
    (hvalid : ∀ p ∈ parts, p.Valid P hash64)
    (hascending : parts.Pairwise fun p q => p.offset < q.offset)
    (hstorable : ∀ h ∈ (parts.map (·.handle P)).map (PartitionedFilterWriter.shift base),
      h.Storable) (hcomplete : ∀ hashes f, P.build hashes = some f →
      ∀ h ∈ hashes, P.maybeContainsHash f h = true) (hkey : key ∈ parts.flatMap (·.keys)) :
    checkBloom P hash64 (some (filterSection P base parts)) key =
      (openBlock (decodable (K := K)) (filterSection P base parts).tli).map fun _ => .proceed := by
  obtain ⟨p, hp, hkp⟩ := List.mem_flatMap.1 hkey
  have hload : (filterSection P base parts).blocks.find?
      (fun block => decide (block.1 = p.offset + base)) = some (p.offset + base, p.filter) := by
    apply SortedSearch.find?_key (g := Prod.fst) (x := (p.offset + base, p.filter))
    · apply List.Pairwise.imp (fun hlt => ne_of_lt hlt)
      apply List.pairwise_map.2
      apply List.pairwise_map.2
      exact hascending.imp fun hlt => Nat.add_lt_add_right hlt base
    · exact List.mem_map.2 ⟨p, hp, rfl⟩
  have hprobe : P.maybeContainsHash p.filter (hash64 (toBytes key)) = true :=
    hcomplete _ _ (hvalid p hp).filter _ (List.mem_map.2 ⟨key, hkp, rfl⟩)
  cases hopen : openBlock (decodable (K := K)) (filterSection P base parts).tli with
  | none => simp only [checkBloom, hopen, bind_eq_bind, bind_none, map_none]
  | some b =>
    obtain ⟨⟨L⟩, -, -⟩ := codes.openBlock_encodeInto_some hstorable (fun _ => 0) Nat.one_pos
      (by decide) (by decide) hopen
    have hseek := seekHandle_partition hs hvalid L hp hkp
    have hoffset : (PartitionedFilterWriter.shift base (p.handle P)).offset = p.offset + base := rfl
    simp only [checkBloom, hopen, bind_eq_bind, bind_some, hseek, hoffset, hload,
      hprobe, if_true, map_some, pure_def]

/-- A key that was registered is never skipped, whatever the comparator, the policy and the size of
the partitions; the lookup can only fail where the top-level index does not open. -/
theorem checkBloom_registered {partitionSize base : ℕ} {w : PartitionedFilterWriter K F}
    {filter : Option (FilterSection F)} (hs : keys.Pairwise (· < ·))
    (hlen : ∀ k ∈ keys, (toBytes k).length < 2 ^ 16)
    (hsize : ∀ f, 0 < P.blockSize f ∧ P.blockSize f < 2 ^ 32)
    (hcomplete : ∀ hashes f, P.build hashes = some f →
      ∀ h ∈ hashes, P.maybeContainsHash f h = true)
    (hrun : keys.foldlM (PartitionedFilterWriter.registerKey P hash64 partitionSize)
      PartitionedFilterWriter.new = some w)
    (hfin : w.finish P base = some filter)
    (hfile : ∀ s ∈ filter, ∀ b ∈ s.blocks, b.1 < 2 ^ 64) {key : K} (hkey : key ∈ keys) :
    checkBloom P hash64 filter key ≠ some .skip ∧
      ∃ s, filter = some s ∧ checkBloom P hash64 filter key =
        (openBlock (decodable (K := K)) s.tli).map fun _ => .proceed := by
  obtain ⟨parts₀, rest, hwritten⟩ := PartitionedFilterWriter.written_of_foldlM
    (fun f => (hsize f).1) PartitionedFilterWriter.written_new hrun
  rw [List.nil_append] at hwritten
  obtain ⟨w', parts, h, hsection⟩ :=
    hwritten.finish (fun f => (hsize f).1) (List.ne_nil_of_mem hkey) hfin
  have hgiven := h.given
  rw [List.append_nil] at hgiven
  subst hgiven
  have hfilter : filter = some (filterSection P base parts) := by
    rw [hsection, h.handles, h.buffer, List.map_map]
    rfl
  subst hfilter
  have hstorable : ∀ x ∈ (parts.map (·.handle P)).map (PartitionedFilterWriter.shift base),
      x.Storable := by
    intro x hx
    rw [List.map_map] at hx
    obtain ⟨q, hq, rfl⟩ := List.mem_map.1 hx
    have hend := (le_endKey ((List.pairwise_flatMap.1 hs).1 q hq) (h.valid q hq).endKey).1
    exact ⟨hlen _ (List.mem_flatMap.2 ⟨q, hq, hend⟩), Nat.two_pow_pos 64,
      hfile _ rfl _ (List.mem_map.2 ⟨q, hq, rfl⟩), (hsize q.filter).2⟩
  have hresult := checkBloom_filterSection hs h.valid h.ascending hstorable hcomplete hkey
  refine ⟨?_, _, rfl, hresult⟩
  rw [hresult]
  intro hskip
  obtain ⟨b, -, hb⟩ := map_eq_some_iff.1 hskip
  cases hb

end Lookup

section Example

def hashListPolicy : FilterPolicy (List ℕ) where
  estimatedFilterSize := id
  build := some
  blockSize := fun _ => 40
  maybeContainsHash := fun hashes h => hashes.contains h

/-- Three keys in descending byte order, which is the order of the comparator; two of them fill a
partition. -/
def threeKeys : List ReversedKey := [reversed 9, reversed 5, reversed 2]

def threeKeysWriter : PartitionedFilterWriter ReversedKey (List ℕ) where
  finalFilterBuffer := [(0, [9, 5])]
  tliHandles := [⟨reversed 5, 0, 0, 40⟩]
  bloomHashBuffer := [2]
  relativeFilePos := 40
  lastKey := some (reversed 2)

def byteSum (key : List Byte) : ℕ := (key.map Fin.val).sum

def threeKeysSection : FilterSection (List ℕ) where
  blocks := [(100, [9, 5]), (140, [2])]
  tli := StoredHandle.encodeInto 1
    [⟨reversed 5, 0, 100, 40⟩, ⟨reversed 2, 0, 140, 40⟩]

theorem threeKeys_found :
    threeKeys.foldlM (PartitionedFilterWriter.registerKey hashListPolicy byteSum 2)
      PartitionedFilterWriter.new = some threeKeysWriter ∧
    threeKeysWriter.finish hashListPolicy 100 = some (some threeKeysSection) ∧
    ∀ key ∈ threeKeys, checkBloom hashListPolicy byteSum (some threeKeysSection) key =
      some .proceed := by
  refine ⟨rfl, rfl, fun key hkey => ?_⟩
  have hcomplete : ∀ hashes f, hashListPolicy.build hashes = some f →
      ∀ h ∈ hashes, hashListPolicy.maybeContainsHash f h = true := by
    rintro hashes f ⟨⟩ h hh
    exact List.elem_eq_true_of_mem hh
  have hfile : ∀ s ∈ some threeKeysSection, ∀ b ∈ s.blocks, b.1 < 2 ^ 64 := by
    rintro s ⟨⟩
    decide
  have hopen : (openBlock (decodable (K := ReversedKey)) threeKeysSection.tli).isSome = true := by
    decide +kernel
  obtain ⟨-, s, hs, hresult⟩ := checkBloom_registered (P := hashListPolicy) (by decide)
    (by decide) (fun _ => ⟨Nat.succ_pos 39, (by decide : 40 < 2 ^ 32)⟩) hcomplete
    (show threeKeys.foldlM (PartitionedFilterWriter.registerKey hashListPolicy byteSum 2)
      PartitionedFilterWriter.new = some threeKeysWriter from rfl)
    (show threeKeysWriter.finish hashListPolicy 100 = some (some threeKeysSection) from rfl)
    hfile hkey
  cases hs
  obtain ⟨b, hb⟩ := isSome_iff_exists.1 hopen
  rw [hresult, hb]
  rfl

end Example

end LsmTree
