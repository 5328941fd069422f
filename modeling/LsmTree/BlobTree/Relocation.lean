import LsmTree.BlobTree.Flush
import LsmTree.Theory.HeapMerge

/-! Relocation of blobs during a compaction. -/
namespace LsmTree

open Codec RawKey List

variable {K : Type*} [RawKey K]

/-- The order of the scanner's heap: byte order of the keys, then newest header first. -/
def ScanEntry.le (a b : ScanEntry K) : Bool :=
  bytesLt a.key b.key || (!bytesLt b.key a.key && decide (b.seqno ≤ a.seqno))

/-- `BlobFileMergeScanner`: the entries with the files they come from. -/
def mergeScan (pick : List (List (ℕ × ScanEntry K)) → ℕ) (files : List (BlobFile K)) :
    List (ℕ × ScanEntry K) :=
  HeapMerge.merge (fun a b => a.2.le b.2) pick (files.map fun f => f.scan.map fun e => (f.id, e))

inductive RelocateError where
  | undecodable
  /-- "vptr was not matched with blob" -/
  | notMatched
  /-- "vptr was not matched with blob (scanner is unexpectedly exhausted)" -/
  | exhausted
  /-- "matched blob has different blob file ID than vptr" -/
  | differentFile
  /-- "matched blob has different key than vptr" -/
  | differentKey
  /-- "matched blob has different offset than vptr" -/
  | differentOffset
  | blob (e : BlobError)
  /-- "redirecting blob should not change its size" -/
  | sizeChanged
  deriving DecidableEq, Repr

structure RelocatingCompaction (K : Type*) [RawKey K] where
  blobScanner : List (ℕ × ScanEntry K)
  blobWriter : BlobFileWriter K
  rewritingBlobFileIds : List ℕ
  /-- what went to the table writer -/
  written : List (InternalValue K Bytes)

variable [DecidableEq K]

def drainable (key : K) (h : ValueHandle) (x : ℕ × ScanEntry K) : Bool :=
  decide (x.2.key ≠ key ∨ x.1 ≠ h.blobFileId ∨ x.2.offset < h.offset)

def drainBlobs (key : K) (h : ValueHandle) :
    List (ℕ × ScanEntry K) → Except RelocateError (List (ℕ × ScanEntry K))
  | [] => .ok []
  | x :: xs =>
    if drainable key h x then
      if bytesLt key x.2.key then .error .notMatched else drainBlobs key h xs
    else .ok (x :: xs)

namespace RelocatingCompaction

variable (s : RelocatingCompaction K)

/-- The blob is copied as it is stored, under the key and sequence number of the index entry. -/
def relocate (item : InternalValue K Bytes) (i : BlobIndirection) :
    Except RelocateError (RelocatingCompaction K) := do
  match ← drainBlobs item.userKey i.vhandle s.blobScanner with
  | [] => .error .exhausted
  | (blobFileId, entry) :: rest =>
    if blobFileId ≠ i.vhandle.blobFileId then .error .differentFile
    else if entry.key ≠ item.userKey then .error .differentKey
    else if entry.offset ≠ i.vhandle.offset then .error .differentOffset
    else
      match s.blobWriter.writeRaw item.userKey item.seqno entry.value entry.uncompressedLen with
      | .error e => .error (.blob e)
      | .ok (vhandle, blobWriter) =>
        if vhandle.onDiskSize ≠ i.vhandle.onDiskSize then .error .sizeChanged
        else .ok { s with
          blobScanner := rest
          blobWriter := blobWriter
          written := s.written ++
            [{ item with value := (⟨vhandle, i.size⟩ : BlobIndirection).encode }] }

def write (item : InternalValue K Bytes) : Except RelocateError (RelocatingCompaction K) :=
  if item.valueType = .indirection then
    match BlobIndirection.decode item.value with
    | none => .error .undecodable
    | some i =>
      if i.vhandle.blobFileId ∈ s.rewritingBlobFileIds then s.relocate item i
      else .ok { s with written := s.written ++ [item] }
  else .ok { s with written := s.written ++ [item] }

def writeAll : RelocatingCompaction K → List (InternalValue K Bytes) →
    Except RelocateError (RelocatingCompaction K)
  | s, [] => .ok s
  | s, item :: items => do
    let s ← s.write item
    writeAll s items

def new (files : List (BlobFile K)) (pick : List (List (ℕ × ScanEntry K)) → ℕ)
    (blobWriter : BlobFileWriter K) : RelocatingCompaction K :=
  ⟨mergeScan pick files, blobWriter, files.map (·.id), []⟩

end RelocatingCompaction

def InternalValue.refInto (ids : List ℕ) (e : InternalValue K Bytes) : Option BlobIndirection :=
  if e.valueType = .indirection then
    (BlobIndirection.decode e.value).filter fun i => decide (i.vhandle.blobFileId ∈ ids)
  else none

/-- A handle into a rewritten file is replaced by one to the same bytes in a new file, and
everything else stays. -/
def Moved (files newFiles : List (BlobFile K)) (e e' : InternalValue K Bytes) : Prop :=
  match e.refInto (files.map (·.id)) with
  | none => e' = e
  | some i => ∃ vhandle, e' = { e with value := (⟨vhandle, i.size⟩ : BlobIndirection).encode } ∧
      ∃ v, readBlob files e.userKey i.vhandle = some v ∧ readBlob newFiles e.userKey vhandle = some v

/-- The stream is written without a panic, and every entry is moved as it should be. -/
def Relocates (files : List (BlobFile K)) (pick : List (List (ℕ × ScanEntry K)) → ℕ)
    (w : BlobFileWriter K) (stream : List (InternalValue K Bytes)) : Prop :=
  ∃ s, (RelocatingCompaction.new files pick w).writeAll stream = .ok s ∧
    List.Forall₂ (Moved files s.blobWriter.finish) stream s.written

/-- Every handle of the stream decodes, and those into the rewritten files read a blob of their
key. -/
def HandlesValid (files : List (BlobFile K)) (stream : List (InternalValue K Bytes)) : Prop :=
  ∀ e ∈ stream, e.valueType = .indirection → ∃ i, BlobIndirection.decode e.value = some i ∧
    (i.vhandle.blobFileId ∈ files.map (·.id) → ∃ v, readBlob files e.userKey i.vhandle = some v)

def refsInto (ids : List ℕ) (stream : List (InternalValue K Bytes)) : List (K × ValueHandle) :=
  stream.filterMap fun e => (e.refInto ids).map fun i => (e.userKey, i.vhandle)

/-- The frames of the handles come in the order of the handles, and no frame on the way to one has a
key after its key in byte order. -/
inductive InStep : List (K × ValueHandle) → List (ℕ × ScanEntry K) → Prop
  | nil {scan : List (ℕ × ScanEntry K)} : InStep [] scan
  | cons {key : K} {h : ValueHandle} {refs : List (K × ValueHandle)}
      {skipped rest : List (ℕ × ScanEntry K)} {x : ℕ × ScanEntry K} :
      (∀ y ∈ skipped, bytesLt key y.2.key = false) → x.1 = h.blobFileId → x.2.key = key →
      x.2.offset = h.offset → InStep refs rest → InStep ((key, h) :: refs) (skipped ++ x :: rest)

section Scan

variable {files : List (BlobFile K)} {scan : List (ℕ × ScanEntry K)} {key : K} {h : ValueHandle}

structure ScansFiles (files : List (BlobFile K)) (scan : List (ℕ × ScanEntry K)) : Prop where
  mem : ∀ x ∈ scan, ∃ f ∈ files, f.id = x.1 ∧ x.2 ∈ f.scan
  order : scan.Pairwise fun a b => a.1 = b.1 → a.2.offset < b.2.offset

omit [DecidableEq K] in
theorem ScansFiles.sublist {scan' : List (ℕ × ScanEntry K)} (hs : ScansFiles files scan)
    (hsub : scan'.Sublist scan) : ScansFiles files scan' :=
  ⟨fun x hx => hs.mem x (hsub.subset hx), hs.order.sublist hsub⟩

omit [DecidableEq K] in
theorem reader_eq {i : ℕ} {r : List (ℕ × ScanEntry K)}
    (hr : (files.map fun f => f.scan.map fun e => (f.id, e))[i]? = some r) :
    ∃ f, files[i]? = some f ∧ r = f.scan.map fun e => (f.id, e) := by
  rw [List.getElem?_map] at hr
  obtain ⟨f, hf, rfl⟩ := Option.map_eq_some_iff.1 hr
  exact ⟨f, hf, rfl⟩

omit [DecidableEq K] in
theorem ids_ne (hids : (files.map (·.id)).Nodup) {i j : ℕ} {f g : BlobFile K} (hij : i ≠ j)
    (hf : files[i]? = some f) (hg : files[j]? = some g) : f.id ≠ g.id := by
  intro heq
  have hfi : (files.map (·.id))[i]? = some f.id := by rw [List.getElem?_map, hf]; rfl
  have hgj : (files.map (·.id))[j]? = some f.id := by rw [List.getElem?_map, hg, heq]; rfl
  have hlt := (List.getElem?_eq_some_iff.1 hfi).1
  exact absurd ((List.getElem?_inj hlt hids).1 (hfi.trans hgj.symm)) hij

omit [DecidableEq K] in
theorem mergeScan_scansFiles (hids : (files.map (·.id)).Nodup)
    (pick : List (List (ℕ × ScanEntry K)) → ℕ) : ScansFiles files (mergeScan pick files) := by
  constructor
  · intro x hx
    obtain ⟨i, r, hi, hxr⟩ := HeapMerge.mem_mergeFuel hx
    obtain ⟨f, hf, rfl⟩ := reader_eq hi
    obtain ⟨e, he, rfl⟩ := mem_map.1 hxr
    exact ⟨f, mem_of_getElem? hf, rfl, he⟩
  · apply HeapMerge.mergeFuel_pairwise
    · intro i r hr
      obtain ⟨f, -, rfl⟩ := reader_eq hr
      refine pairwise_map.2 (List.Pairwise.imp ?_ (scanFrom_offsets 0 f.frames))
      exact fun hlt _ => hlt
    · intro i j r s hij hr hs a ha b hb hfile
      obtain ⟨f, hf, rfl⟩ := reader_eq hr
      obtain ⟨g, hg, rfl⟩ := reader_eq hs
      obtain ⟨_, -, rfl⟩ := mem_map.1 ha
      obtain ⟨_, -, rfl⟩ := mem_map.1 hb
      exact absurd hfile (ids_ne hids hij hf hg)

theorem drainable_false {x : ℕ × ScanEntry K} : drainable key h x = false ↔
    x.2.key = key ∧ x.1 = h.blobFileId ∧ h.offset ≤ x.2.offset := by
  simp [drainable]

theorem drainBlobs_iff (hs : ScansFiles files scan) {x : ℕ × ScanEntry K}
    {rest : List (ℕ × ScanEntry K)} (hfile : x.1 = h.blobFileId) (hkey : x.2.key = key)
    (ho : x.2.offset = h.offset) : drainBlobs key h scan = .ok (x :: rest) ↔
      ∃ skipped, scan = skipped ++ x :: rest ∧ ∀ y ∈ skipped, bytesLt key y.2.key = false := by
  have hx : drainable key h x = false := drainable_false.2 ⟨hkey, hfile, ho.ge⟩
  induction scan with
  | nil => simp [drainBlobs]
  | cons y ys ih =>
    by_cases hy : drainable key h y = true
    · have hne : y ≠ x := by
        rintro rfl
        rw [hx] at hy
        cases hy
      rw [drainBlobs, if_pos hy]
      constructor
      · intro hdrain
        split_ifs at hdrain with hlt
        obtain ⟨skipped, rfl, hall⟩ := (ih (hs.sublist (sublist_cons_self _ _))).1 hdrain
        exact ⟨y :: skipped, rfl, forall_mem_cons.2 ⟨by simpa using hlt, hall⟩⟩
      · rintro ⟨skipped, heq, hall⟩
        cases skipped with
        | nil => exact absurd (List.cons.inj heq).1 hne
        | cons z skipped =>
          obtain ⟨rfl, rfl⟩ := List.cons.inj heq
          obtain ⟨hz, hall⟩ := forall_mem_cons.1 hall
          rw [hz]
          exact (ih (hs.sublist (sublist_cons_self _ _))).2 ⟨skipped, rfl, hall⟩
    · rw [drainBlobs, if_neg hy]
      obtain ⟨-, hyfile, hyo⟩ := drainable_false.1 (Bool.not_eq_true _ ▸ hy)
      constructor
      · intro heq
        cases heq
        exact ⟨[], rfl, nofun⟩
      · rintro ⟨skipped, heq, -⟩
        cases skipped with
        | nil => exact congrArg Except.ok heq
        | cons z skipped =>
          obtain ⟨rfl, rfl⟩ := List.cons.inj heq
          -- the frame of the handle would lie behind one of its file with a larger offset
          have hlt := (pairwise_cons.1 hs.order).1 x (by simp) (hyfile.trans hfile.symm)
          omega

end Scan

section Write

variable {files : List (BlobFile K)} {s s' : RelocatingCompaction K} {item : InternalValue K Bytes}
  {i : BlobIndirection}

variable {w : BlobFileWriter K}

omit [DecidableEq K] in
theorem BlobFileWriter.writeRaw_frame (hc : w.compression = Compression.none) (f : Frame K)
    (seqno : ℕ) :
    w.writeRaw f.key seqno f.value f.uncompressedLen = .ok (w.append { f with seqno := seqno }) := by
  have hcap : maxDecompressionSize < 2 ^ 32 := by decide
  have hvalue := f.value_le
  have hself : w.compression.compress f.value = f.value := by rw [hc]; rfl
  rw [writeRaw, dif_pos ⟨f.key_pos, f.key_le, hvalue.trans_lt hcap⟩, dif_pos f.len_le,
    if_pos hvalue, dif_pos (by rwa [hself])]
  simp only [hself]

def RelocatingCompaction.movedItem (s : RelocatingCompaction K) (item : InternalValue K Bytes)
    (i : BlobIndirection) (x : ScanEntry K) : InternalValue K Bytes :=
  let r := s.blobWriter.append { x.toFrame with seqno := item.seqno }
  { item with value := (⟨r.1, i.size⟩ : BlobIndirection).encode }

def RelocatingCompaction.moved (s : RelocatingCompaction K) (item : InternalValue K Bytes)
    (i : BlobIndirection) (x : ScanEntry K) (rest : List (ℕ × ScanEntry K)) :
    RelocatingCompaction K :=
  { s with
    blobScanner := rest
    blobWriter := (s.blobWriter.append { x.toFrame with seqno := item.seqno }).2
    written := s.written ++ [s.movedItem item i x] }

variable {scan : List (ℕ × ScanEntry K)} {x : ℕ × ScanEntry K} {h : ValueHandle} {key : K}
  {v : Bytes}

theorem holds_scanned (hids : (files.map (·.id)).Nodup) (hs : ScansFiles files scan) (hx : x ∈ scan)
    (hfile : x.1 = h.blobFileId) (ho : x.2.offset = h.offset) (hv : readBlob files key h = some v) :
    ∃ c, Holds files c h x.2.toFrame := by
  obtain ⟨f, hf, hid, he⟩ := hs.mem x hx
  obtain ⟨c, g, ⟨hsize, file, hmem, hid', hcodec, e, he', hframe, ho'⟩, -, -⟩ := holds_of_read hv
  have hsame : f = file :=
    inj_on_of_nodup_map hids hf hmem ((hid.trans hfile).trans hid'.symm)
  subst hsame
  have heq : x.2 = e :=
    inj_on_of_nodup_map f.scan_offsets_nodup he he' (ho.trans ho'.symm)
  subst heq
  exact ⟨c, by rw [hframe]; exact hsize, f, hmem, hid', hcodec, x.2, he, rfl, ho⟩

structure Relocating (files : List (BlobFile K)) (s : RelocatingCompaction K) : Prop where
  scan : ScansFiles files s.blobScanner
  ids : s.rewritingBlobFileIds = files.map (·.id)
  codec : s.blobWriter.compression = Compression.none

omit [DecidableEq K] in
theorem Relocating.moved {skipped rest : List (ℕ × ScanEntry K)} (hs : Relocating files s)
    (hscan : s.blobScanner = skipped ++ x :: rest) :
    Relocating files (s.moved item i x.2 rest) := by
  constructor
  · apply hs.scan.sublist
    rw [hscan]
    exact (sublist_cons_self _ _).trans (sublist_append_right _ _)
  · exact hs.ids
  · exact (s.blobWriter.append_codecs _).1.trans hs.codec

theorem relocate_iff (hids : (files.map (·.id)).Nodup) (hs : Relocating files s)
    (hv : readBlob files item.userKey i.vhandle = some v) :
    s.relocate item i = .ok s' ↔ ∃ skipped x rest, s.blobScanner = skipped ++ x :: rest ∧
      (∀ y ∈ skipped, bytesLt item.userKey y.2.key = false) ∧ x.1 = i.vhandle.blobFileId ∧
      x.2.key = item.userKey ∧ x.2.offset = i.vhandle.offset ∧ s' = s.moved item i x.2 rest := by
  have hwrite : ∀ x : ScanEntry K, x.key = item.userKey →
      s.blobWriter.writeRaw item.userKey item.seqno x.value x.uncompressedLen =
        .ok (s.blobWriter.append { x.toFrame with seqno := item.seqno }) := by
    intro x hkey
    rw [← hkey]
    exact BlobFileWriter.writeRaw_frame hs.codec x.toFrame item.seqno
  constructor
  · intro h
    obtain ⟨l, hdrain, h⟩ := bind_eq_ok.1 h
    cases l with
    | nil => cases h
    | cons x rest =>
      dsimp only at h
      split_ifs at h with hfile hkey ho
      rw [not_not] at hfile hkey ho
      obtain ⟨skipped, hscan, hall⟩ := (drainBlobs_iff hs.scan hfile hkey ho).1 hdrain
      rw [hwrite x.2 hkey] at h
      dsimp only at h
      split_ifs at h
      exact ⟨skipped, x, rest, hscan, hall, hfile, hkey, ho, (Except.ok.inj h).symm⟩
  · rintro ⟨skipped, x, rest, hscan, hall, hfile, hkey, ho, rfl⟩
    have hdrain := (drainBlobs_iff hs.scan hfile hkey ho).2 ⟨skipped, hscan, hall⟩
    obtain ⟨c, hholds⟩ := holds_scanned hids hs.scan (x := x) (by simp [hscan]) hfile ho hv
    apply bind_eq_ok.2
    refine ⟨_, hdrain, ?_⟩
    have hsize : (s.blobWriter.append { x.2.toFrame with seqno := item.seqno }).1.onDiskSize =
        i.vhandle.onDiskSize := hholds.size
    simp only [hfile, hkey, ho, ne_eq, not_true_eq_false, if_false]
    rw [hwrite x.2 hkey]
    simp only [hsize, not_true_eq_false, if_false]
    rfl

theorem write_eq (hs : Relocating files s)
    (hdecode : item.valueType = .indirection → ∃ i, BlobIndirection.decode item.value = some i) :
    s.write item = match item.refInto (files.map (·.id)) with
      | some i => s.relocate item i
      | none => .ok { s with written := s.written ++ [item] } := by
  unfold RelocatingCompaction.write InternalValue.refInto
  by_cases hind : item.valueType = .indirection
  · obtain ⟨i, hi⟩ := hdecode hind
    by_cases hmem : i.vhandle.blobFileId ∈ files.map (·.id)
    · simp only [hind, if_true, hi, hs.ids, hmem, Option.filter_some, decide_true]
    · simp only [hind, if_true, hi, hs.ids, hmem, Option.filter_some, decide_false,
        Bool.false_eq_true, if_false]
  · simp only [hind, if_false]

omit [RawKey K] [DecidableEq K] in
theorem InternalValue.refInto_eq_some {ids : List ℕ} (h : item.refInto ids = some i) :
    item.valueType = .indirection ∧ BlobIndirection.decode item.value = some i ∧
      i.vhandle.blobFileId ∈ ids := by
  unfold InternalValue.refInto at h
  split_ifs at h with hind
  obtain ⟨hi, hmem⟩ := Option.filter_eq_some_iff.1 h
  exact ⟨hind, hi, by simpa using hmem⟩

variable {stream : List (InternalValue K Bytes)}

theorem HandlesValid.read (hv : HandlesValid files stream) (hmem : item ∈ stream)
    (href : item.refInto (files.map (·.id)) = some i) :
    ∃ v, readBlob files item.userKey i.vhandle = some v := by
  obtain ⟨hind, hdecode, hfile⟩ := InternalValue.refInto_eq_some href
  obtain ⟨i', hi', hread⟩ := hv item hmem hind
  rw [hdecode] at hi'
  cases hi'
  exact hread hfile

omit [DecidableEq K] in
theorem inStep_cons_iff {refs : List (K × ValueHandle)} :
    InStep ((key, h) :: refs) scan ↔ ∃ skipped x rest,
      scan = skipped ++ x :: rest ∧ (∀ y ∈ skipped, bytesLt key y.2.key = false) ∧
      x.1 = h.blobFileId ∧ x.2.key = key ∧ x.2.offset = h.offset ∧ InStep refs rest := by
  constructor
  · intro hstep
    cases hstep with
    | cons hall hfile hkey ho hrest => exact ⟨_, _, _, rfl, hall, hfile, hkey, ho, hrest⟩
  · rintro ⟨skipped, x, rest, rfl, hall, hfile, hkey, ho, hrest⟩
    exact .cons hall hfile hkey ho hrest

theorem writeAll_ok_iff (hids : (files.map (·.id)).Nodup) (hv : HandlesValid files stream)
    (hs : Relocating files s) :
    (∃ s', s.writeAll stream = .ok s') ↔
      InStep (refsInto (files.map (·.id)) stream) s.blobScanner := by
  induction stream generalizing s with
  | nil => exact ⟨fun _ => .nil, fun _ => ⟨s, rfl⟩⟩
  | cons item stream ih =>
    have hrest : HandlesValid files stream := fun e he => hv e (mem_cons_of_mem _ he)
    have hwrite := write_eq hs fun hind =>
      (hv item mem_cons_self hind).imp fun _ h => h.1
    have hunfold : (∃ s', s.writeAll (item :: stream) = .ok s') ↔
        ∃ t, s.write item = .ok t ∧ ∃ s', t.writeAll stream = .ok s' := by
      constructor
      · rintro ⟨s', h⟩
        obtain ⟨t, ht, h⟩ := bind_eq_ok.1 h
        exact ⟨t, ht, s', h⟩
      · rintro ⟨t, ht, s', h⟩
        exact ⟨s', bind_eq_ok.2 ⟨t, ht, h⟩⟩
    rw [hunfold, hwrite]
    cases href : item.refInto (files.map (·.id)) with
    | none =>
      have hpass : Relocating files { s with written := s.written ++ [item] } :=
        ⟨hs.scan, hs.ids, hs.codec⟩
      simp only [refsInto, filterMap_cons, href, Option.map_none, Except.ok.injEq,
        exists_eq_left']
      exact ih hrest hpass
    | some i =>
      obtain ⟨v, hread⟩ := hv.read mem_cons_self href
      simp only [refsInto, filterMap_cons, href, Option.map_some]
      rw [inStep_cons_iff]
      constructor
      · rintro ⟨t, ht, hall⟩
        obtain ⟨skipped, x, rest, hscan, hle, hfile, hkey, ho, rfl⟩ :=
          (relocate_iff hids hs hread).1 ht
        exact ⟨skipped, x, rest, hscan, hle, hfile, hkey, ho, (ih hrest (hs.moved hscan)).1 hall⟩
      · rintro ⟨skipped, x, rest, hscan, hle, hfile, hkey, ho, hstep⟩
        exact ⟨_, (relocate_iff hids hs hread).2 ⟨skipped, x, rest, hscan, hle, hfile, hkey, ho, rfl⟩,
          (ih hrest (hs.moved hscan)).2 hstep⟩

/-- The entry stays, or the frame of its handle is in the new files under a new handle. -/
def Copied (files newFiles : List (BlobFile K)) (c : Compression) (e e' : InternalValue K Bytes) :
    Prop :=
  match e.refInto (files.map (·.id)) with
  | none => e' = e
  | some i => ∃ vhandle, e' = { e with value := (⟨vhandle, i.size⟩ : BlobIndirection).encode } ∧
      ∃ c' f, Holds files c' i.vhandle f ∧ f.key = e.userKey ∧
        Holds newFiles c vhandle { f with seqno := e.seqno }

theorem writeAll_copied (hids : (files.map (·.id)).Nodup) (hv : HandlesValid files stream)
    (hs : Relocating files s) (h : s.writeAll stream = .ok s') :
    s.blobWriter.Keeps s'.blobWriter ∧ ∃ out, s'.written = s.written ++ out ∧
      List.Forall₂ (Copied files s'.blobWriter.finish s.blobWriter.recorded) stream out := by
  induction stream generalizing s with
  | nil =>
    cases h
    exact ⟨fun _ _ _ => id, [], (append_nil _).symm, .nil⟩
  | cons item stream ih =>
    have hrest : HandlesValid files stream := fun e he => hv e (mem_cons_of_mem _ he)
    obtain ⟨t, ht, h⟩ := bind_eq_ok.1 h
    rw [write_eq hs fun hind => (hv item mem_cons_self hind).imp fun _ h => h.1] at ht
    cases href : item.refInto (files.map (·.id)) with
    | none =>
      rw [href] at ht
      cases ht
      have hpass : Relocating files { s with written := s.written ++ [item] } :=
        ⟨hs.scan, hs.ids, hs.codec⟩
      obtain ⟨hkeeps, out, hout, hall⟩ := ih hrest hpass h
      refine ⟨hkeeps, item :: out, by simpa using hout, .cons ?_ hall⟩
      simp only [Copied, href]
    | some i =>
      rw [href] at ht
      obtain ⟨v, hread⟩ := hv.read mem_cons_self href
      obtain ⟨skipped, x, rest, hscan, -, hfile, hkey, ho, rfl⟩ := (relocate_iff hids hs hread).1 ht
      obtain ⟨hkeeps, out, hout, hall⟩ := ih hrest (hs.moved hscan) h
      obtain ⟨c, hholds⟩ := holds_scanned hids hs.scan (x := x) (by simp [hscan]) hfile ho hread
      have hstep : s.blobWriter.Keeps (s.moved item i x.2 rest).blobWriter :=
        fun _ _ _ => BlobFileWriter.append_keeps _
      have hrec : (s.moved item i x.2 rest).blobWriter.recorded = s.blobWriter.recorded :=
        (s.blobWriter.append_codecs _).2
      rw [hrec] at hall
      refine ⟨fun c h f hf => hkeeps c h f (hstep c h f hf), s.movedItem item i x.2 :: out, ?_,
        .cons ?_ hall⟩
      · rw [hout]
        simp [RelocatingCompaction.moved]
      · simp only [Copied, href]
        exact ⟨_, rfl, c, x.2.toFrame, hholds, hkey, hkeeps _ _ _ (BlobFileWriter.append_holds _)⟩

end Write

section Main

variable {files : List (BlobFile K)}

def recodeFiles (c : Compression) (files : List (BlobFile K)) : List (BlobFile K) :=
  files.map fun f => { f with compression := c }

omit [DecidableEq K] in
theorem recodeFiles_ids (c : Compression) :
    (recodeFiles c files).map (·.id) = files.map (·.id) := by
  simp [recodeFiles, Function.comp_def]

omit [DecidableEq K] in
theorem Holds.recode {c c' : Compression} {h : ValueHandle} {f : Frame K} (hf : Holds files c h f) :
    Holds (recodeFiles c' files) c' h f := by
  obtain ⟨hsize, file, hmem, hid, -, e, he, hframe, ho⟩ := hf
  exact ⟨hsize, _, mem_map_of_mem hmem, hid, rfl, e, he, hframe, ho⟩

theorem Copied.moved_iff (hids : (files.map (·.id)).Nodup) {w : BlobFileWriter K} {c : Compression}
    {e e' : InternalValue K Bytes} (h : Copied files w.finish c e e')
    (hread : ∀ i, e.refInto (files.map (·.id)) = some i →
      ∃ v, readBlob files e.userKey i.vhandle = some v) :
    Moved files w.finish e e' ↔ ∀ i, e.refInto (files.map (·.id)) = some i →
      readBlob (recodeFiles c files) e.userKey i.vhandle = readBlob files e.userKey i.vhandle := by
  unfold Copied at h
  unfold Moved
  cases href : e.refInto (files.map (·.id)) with
  | none =>
    rw [href] at h
    simp [h]
  | some i =>
    rw [href] at h
    obtain ⟨v, hv⟩ := hread i href
    obtain ⟨vhandle, rfl, c', f, hf, hkey, hnew⟩ := h
    have hold : readBlob (recodeFiles c files) e.userKey i.vhandle =
        c.decompress f.uncompressedLen f.value := by
      rw [← hkey]
      exact hf.recode.read (by rwa [recodeFiles_ids])
    have hcopy : readBlob w.finish e.userKey vhandle = c.decompress f.uncompressedLen f.value := by
      have hread := hnew.read BlobFileWriter.finish_ids_nodup
      dsimp only at hread
      rwa [hkey] at hread
    constructor
    · rintro ⟨vhandle', heq, v', hv', hv''⟩ i' hi'
      cases hi'
      have hencode := congrArg (fun e => BlobIndirection.decode (InternalValue.value e)) heq
      simp only [BlobIndirection.decode_encode, Option.some.injEq, BlobIndirection.mk.injEq] at hencode
      rw [hold, ← hcopy, hencode.1, hv'', hv']
    · intro hcodec
      refine ⟨vhandle, rfl, v, hv, ?_⟩
      rw [hcopy, ← hold, hcodec i rfl, hv]

theorem forall₂_moved_iff (hids : (files.map (·.id)).Nodup) {w : BlobFileWriter K} {c : Compression}
    {stream out : List (InternalValue K Bytes)}
    (h : List.Forall₂ (Copied files w.finish c) stream out) (hv : HandlesValid files stream) :
    List.Forall₂ (Moved files w.finish) stream out ↔
      ∀ r ∈ refsInto (files.map (·.id)) stream,
        readBlob (recodeFiles c files) r.1 r.2 = readBlob files r.1 r.2 := by
  induction h with
  | nil => simp [refsInto]
  | @cons e e' stream out he _ ih =>
    have hrest : HandlesValid files stream := fun e he => hv e (mem_cons_of_mem _ he)
    rw [List.forall₂_cons, ih hrest, he.moved_iff hids fun i => hv.read mem_cons_self]
    cases href : e.refInto (files.map (·.id)) <;> simp [refsInto, href]

/-- A relocation that is handed valid handles moves its stream exactly when the scan, in the order
of the frame headers, keeps step with the handles in stream order, and the codec that the new files
record reads the copied bytes as the old files did. -/
theorem relocates_iff (files : List (BlobFile K)) (hids : (files.map (·.id)).Nodup)
    (w : BlobFileWriter K) (hw : w.compression = Compression.none)
    (pick : List (List (ℕ × ScanEntry K)) → ℕ) (stream : List (InternalValue K Bytes))
    (hv : HandlesValid files stream) :
    Relocates files pick w stream ↔
      InStep (refsInto (files.map (·.id)) stream) (mergeScan pick files) ∧
      ∀ r ∈ refsInto (files.map (·.id)) stream,
        readBlob (recodeFiles w.recorded files) r.1 r.2 = readBlob files r.1 r.2 := by
  have hs : Relocating files (RelocatingCompaction.new files pick w) :=
    ⟨mergeScan_scansFiles hids pick, rfl, hw⟩
  have hmoved : ∀ s, (RelocatingCompaction.new files pick w).writeAll stream = .ok s →
      (List.Forall₂ (Moved files s.blobWriter.finish) stream s.written ↔
        ∀ r ∈ refsInto (files.map (·.id)) stream,
          readBlob (recodeFiles w.recorded files) r.1 r.2 = readBlob files r.1 r.2) := by
    intro s h
    obtain ⟨-, out, hout, hall⟩ := writeAll_copied hids hv hs h
    have hwritten : s.written = out := hout
    rw [hwritten]
    exact forall₂_moved_iff hids hall hv
  have hok : (∃ s, (RelocatingCompaction.new files pick w).writeAll stream = .ok s) ↔
      InStep (refsInto (files.map (·.id)) stream) (mergeScan pick files) :=
    writeAll_ok_iff hids hv hs
  rw [← hok]
  constructor
  · rintro ⟨s, h, hall⟩
    exact ⟨⟨s, h⟩, (hmoved s h).1 hall⟩
  · rintro ⟨⟨s, h⟩, hcodec⟩
    exact ⟨s, h, (hmoved s h).2 hcodec⟩

end Main

section Headers

variable {K : Type*} [RawKey K] {files : List (BlobFile K)}

def headerLt (a b : K × ℕ) : Prop :=
  toBytes a.1 < toBytes b.1 ∨ a.1 = b.1 ∧ b.2 < a.2

def ScanEntry.header (e : ScanEntry K) : K × ℕ := (e.key, e.seqno)

def headerRank (a : K × ℕ) : Lex (List Byte × ℕᵒᵈ) := toLex (toBytes a.1, OrderDual.toDual a.2)

theorem toBytes_injective : Function.Injective (toBytes : K → List Byte) :=
  Function.LeftInverse.injective ofBytes_toBytes

theorem headerLt_iff {a b : K × ℕ} : headerLt a b ↔ headerRank a < headerRank b := by
  rw [headerLt, headerRank, headerRank, Prod.Lex.toLex_lt_toLex, toBytes_injective.eq_iff]
  rfl

theorem ScanEntry.le_iff {a b : ScanEntry K} :
    a.le b = true ↔ headerRank a.header ≤ headerRank b.header := by
  rw [headerRank, headerRank, Prod.Lex.toLex_le_toLex]
  simp only [ScanEntry.le, bytesLt, ScanEntry.header, Bool.or_eq_true, Bool.and_eq_true,
    Bool.not_eq_true', decide_eq_true_eq, decide_eq_false_iff_not, OrderDual.toDual_le_toDual]
  refine or_congr_right' fun hlt => and_congr_left' ?_
  exact ⟨fun h => le_antisymm (not_lt.1 h) (not_lt.1 hlt), fun h => h.not_gt⟩

theorem headerRank_injective : Function.Injective (headerRank : K × ℕ → _) := by
  intro a b h
  obtain ⟨hkey, hseqno⟩ := Prod.mk.inj (toLex.injective h)
  exact Prod.ext (toBytes_injective hkey) hseqno

theorem scan_headers (f : BlobFile K) :
    f.scan.map ScanEntry.header = f.frames.map fun g => (g.key, g.seqno) := by
  have hfrom : ∀ (offset : ℕ) (fs : List (Frame K)),
      (scanFrom offset fs).map ScanEntry.header = fs.map fun g => (g.key, g.seqno) := by
    intro offset fs
    induction fs generalizing offset with
    | nil => rfl
    | cons g fs ih => simp [scanFrom, ScanEntry.header, ih]
  exact hfrom 0 f.frames

/-- The files were written in the order of their headers, and no two frames have one header. -/
structure HeadersOrdered (files : List (BlobFile K)) : Prop where
  own : ∀ f ∈ files, (f.frames.map fun g => (g.key, g.seqno)).Pairwise headerLt
  cross : ∀ f ∈ files, ∀ g ∈ files, f.id ≠ g.id → ∀ a ∈ f.frames, ∀ b ∈ g.frames,
    (a.key, a.seqno) ≠ (b.key, b.seqno)

theorem mergeScan_sorted (hids : (files.map (·.id)).Nodup) (ho : HeadersOrdered files)
    (pick : List (List (ℕ × ScanEntry K)) → ℕ) :
    (mergeScan pick files).Pairwise fun a b => headerLt a.2.header b.2.header := by
  have hown : ∀ f ∈ files, (f.scan.map fun e => (f.id, e)).Pairwise fun a b =>
      headerLt a.2.header b.2.header := by
    intro f hf
    have hframes := ho.own f hf
    rw [← scan_headers, pairwise_map] at hframes
    exact pairwise_map.2 hframes
  have hsorted : (mergeScan pick files).Pairwise fun a b =>
      headerRank a.2.header ≤ headerRank b.2.header := by
    refine HeapMerge.mergeFuel_sorted (fun a b => @ScanEntry.le_iff K _ a.2 b.2) ?_
    intro i r hr
    obtain ⟨f, hf, rfl⟩ := reader_eq hr
    exact (hown f (mem_of_getElem? hf)).imp fun hlt => (headerLt_iff.1 hlt).le
  have hdistinct : (mergeScan pick files).Pairwise fun a b => a.2.header ≠ b.2.header := by
    apply HeapMerge.mergeFuel_pairwise
    · intro i r hr
      obtain ⟨f, hf, rfl⟩ := reader_eq hr
      refine (hown f (mem_of_getElem? hf)).imp fun hlt heq => ?_
      exact (headerLt_iff.1 hlt).ne (congrArg headerRank heq)
    · intro i j r s hij hr hs a ha b hb heq
      obtain ⟨f, hf, rfl⟩ := reader_eq hr
      obtain ⟨g, hg, rfl⟩ := reader_eq hs
      obtain ⟨x, hx, rfl⟩ := mem_map.1 ha
      obtain ⟨y, hy, rfl⟩ := mem_map.1 hb
      have hframe : ∀ (f : BlobFile K) (e : ScanEntry K), e ∈ f.scan →
          ∃ h ∈ f.frames, (h.key, h.seqno) = e.header := by
        intro f e he
        have := mem_map_of_mem (f := ScanEntry.header) he
        rwa [scan_headers, mem_map] at this
      obtain ⟨a, ha, hka⟩ := hframe f x hx
      obtain ⟨b, hb, hkb⟩ := hframe g y hy
      exact ho.cross f (mem_of_getElem? hf) g (mem_of_getElem? hg) (ids_ne hids hij hf hg)
        a ha b hb (by rw [hka, hkb]; exact heq)
  exact hsorted.imp₂
    (fun a b hle hne => headerLt_iff.2 (hle.lt_of_ne (headerRank_injective.ne hne))) hdistinct

theorem Holds.mem_mergeScan {c : Compression} {h : ValueHandle} {f : Frame K} (hf : Holds files c h f)
    (pick : List (List (ℕ × ScanEntry K)) → ℕ) : ∃ x ∈ mergeScan pick files,
      x.1 = h.blobFileId ∧ x.2.toFrame = f ∧ x.2.offset = h.offset := by
  obtain ⟨-, file, hmem, hid, -, e, he, hframe, ho⟩ := hf
  have hperm : (mergeScan pick files).Perm _ :=
    HeapMerge.merge_perm pick _ fun _ _ => ScanEntry.le_iff
  refine ⟨(file.id, e), hperm.mem_iff.2 ?_, hid, hframe, ho⟩
  exact mem_flatten.2 ⟨_, mem_map_of_mem hmem, mem_map_of_mem he⟩

theorem inStep_of_sublist {refs : List (K × ValueHandle)} {xs scan : List (ℕ × ScanEntry K)}
    (hrefs : List.Forall₂ (fun r x => x.1 = r.2.blobFileId ∧ x.2.key = r.1 ∧
      x.2.offset = r.2.offset) refs xs)
    (hsub : xs.Sublist scan) (hscan : scan.Pairwise fun a b => bytesLt b.2.key a.2.key = false) :
    InStep refs scan := by
  induction hrefs generalizing scan with
  | nil => exact .nil
  | @cons r x refs xs hr _ ih =>
    obtain ⟨front, back, rfl, hmem, hrest⟩ := cons_sublist_iff.1 hsub
    obtain ⟨skipped, between, rfl⟩ := append_of_mem hmem
    rw [append_assoc, cons_append] at hscan ⊢
    obtain ⟨hfile, hkey, ho⟩ := hr
    rw [pairwise_append] at hscan
    refine .cons (fun y hy => ?_) hfile hkey ho (ih ?_ ?_)
    · rw [← hkey]
      exact hscan.2.2 y hy x mem_cons_self
    · exact hrest.trans (sublist_append_right _ _)
    · exact (pairwise_cons.1 hscan.2.1).2

/-- Under byte order, and with every blob stored under the sequence number of its index entry, as a
flush stores it, the relocation keeps step whatever versions were dropped. -/
theorem inStep_of_headers [DecidableEq K] (hids : (files.map (·.id)).Nodup) (ho : HeadersOrdered files)
    (pick : List (List (ℕ × ScanEntry K)) → ℕ) {stream : List (InternalValue K Bytes)}
    (hv : HandlesValid files stream)
    (hstream : stream.Pairwise fun a b => headerLt (a.userKey, a.seqno) (b.userKey, b.seqno))
    (hseqno : ∀ e ∈ stream, ∀ i, e.refInto (files.map (·.id)) = some i →
      ∀ c f, Holds files c i.vhandle f → f.seqno = e.seqno) :
    InStep (refsInto (files.map (·.id)) stream) (mergeScan pick files) := by
  have hframes : ∃ xs : List (ℕ × ScanEntry K),
      List.Forall₂ (fun r x => x.1 = r.2.blobFileId ∧ x.2.key = r.1 ∧ x.2.offset = r.2.offset)
        (refsInto (files.map (·.id)) stream) xs ∧
      (∀ x ∈ xs, x ∈ mergeScan pick files ∧ ∃ e ∈ stream, x.2.header = (e.userKey, e.seqno)) ∧
      xs.Pairwise fun a b => headerLt a.2.header b.2.header := by
    induction stream with
    | nil => exact ⟨[], .nil, nofun, .nil⟩
    | cons e stream ih =>
      rw [pairwise_cons] at hstream
      obtain ⟨xs, hrefs, hxs, hsorted⟩ := ih (fun e he => hv e (mem_cons_of_mem _ he)) hstream.2
        (fun e he => hseqno e (mem_cons_of_mem _ he))
      have hxs' : ∀ x ∈ xs, x ∈ mergeScan pick files ∧
          ∃ e' ∈ e :: stream, x.2.header = (e'.userKey, e'.seqno) := by
        intro x hx
        obtain ⟨hmem, e', he', hheader⟩ := hxs x hx
        exact ⟨hmem, e', mem_cons_of_mem _ he', hheader⟩
      cases href : e.refInto (files.map (·.id)) with
      | none =>
        refine ⟨xs, ?_, hxs', hsorted⟩
        simpa only [refsInto, filterMap_cons, href, Option.map_none] using hrefs
      | some i =>
        obtain ⟨v, hread⟩ := hv.read mem_cons_self href
        obtain ⟨c, f, hf, hkey, -⟩ := holds_of_read hread
        obtain ⟨x, hx, hfile, rfl, hoff⟩ := hf.mem_mergeScan pick
        have hheader : x.2.header = (e.userKey, e.seqno) :=
          Prod.ext hkey (hseqno e mem_cons_self i href c _ hf)
        refine ⟨x :: xs, ?_, forall_mem_cons.2 ⟨⟨hx, e, mem_cons_self, hheader⟩, hxs'⟩,
          pairwise_cons.2 ⟨fun y hy => ?_, hsorted⟩⟩
        · simp only [refsInto, filterMap_cons, href, Option.map_some]
          exact .cons ⟨hfile, hkey, hoff⟩ hrefs
        · obtain ⟨-, e', he', hy⟩ := hxs y hy
          rw [hheader, hy]
          exact hstream.1 e' he'
  obtain ⟨xs, hrefs, hxs, hsorted⟩ := hframes
  have hscan := mergeScan_sorted hids ho pick
  have hsub : xs.Sublist (mergeScan pick files) := by
    simp only [headerLt_iff] at hsorted hscan
    have hnodup : xs.Nodup := hsorted.imp fun hlt heq => hlt.ne (by rw [heq])
    exact sublist_of_subperm_of_pairwise (subperm_of_subset hnodup fun x hx => (hxs x hx).1) hsorted
      hscan
  refine inStep_of_sublist hrefs hsub (hscan.imp fun {a b} hlt => ?_)
  -- no key of the scan comes before an earlier one in byte order
  simp only [bytesLt, decide_eq_false_iff_not]
  rcases hlt with hlt | ⟨hkey, -⟩
  · exact hlt.not_gt
  · have hkey : a.2.key = b.2.key := hkey
    rw [hkey]
    exact lt_irrefl _

end Headers

section Ingest

/-- `BlobIngestion::write` for every item: blob and index entry both go in under sequence number 0.
-/
def ingestAll {K : Type*} [LinearOrder K] [RawKey K] (threshold : ℕ) (w : BlobFileWriter K)
    (items : List (K × Bytes)) : Except BlobError (List (InternalValue K Bytes) × BlobFileWriter K) :=
  -- "next key in ingestion must be ordered after last key by configured comparator"
  if (items.map (·.1)).Pairwise (· < ·) then
    separateAll threshold w (items.map fun x => ⟨x.1, 0, .value, x.2⟩)
  else .error .assertion

end Ingest

section Example

def blobWriterFrom (n : ℕ) : BlobFileWriter (List Byte) :=
  .new 1000 Compression.none Compression.none (fun m => n + m) (add_right_injective n)

def oneByteFrame (key seqno value : Byte) : Frame (List Byte) :=
  ⟨[key], seqno, 1, [value], by simp [toBytes], by simp [toBytes, maxKeyLength],
    by simp [maxDecompressionSize], by simp [maxDecompressionSize]⟩

def flushedFile : BlobFile (List Byte) := ⟨0, Compression.none, [oneByteFrame 107 5 1]⟩

def ingestedFile : BlobFile (List Byte) := ⟨1, Compression.none, [oneByteFrame 107 0 2]⟩

def handleEntry (key : Byte) (seqno blobFileId offset : ℕ) : InternalValue (List Byte) Bytes :=
  ⟨[key], seqno, .indirection, (⟨⟨blobFileId, offset, 1⟩, 1⟩ : BlobIndirection).encode⟩

/-- The ingested version of a key is newer than the flushed one, and its frame has the older header:
the scan passes the flushed frame on the way to it and has nothing left for the flushed version. -/
theorem ingestedOverFlushed_panics :
    (separateAll 1 (blobWriterFrom 0) [⟨[107], 5, .value, [1]⟩]).map (fun r => (r.1, r.2.finish)) =
      .ok ([handleEntry 107 5 0 0], [flushedFile]) ∧
    (ingestAll 1 (blobWriterFrom 1) [([107], [2])]).map
      (fun r => (r.1.map (·.withGlobalSeqno 10), r.2.finish)) =
      .ok ([handleEntry 107 10 1 0], [ingestedFile]) ∧
    (⟨0, false, none, []⟩ : StreamConfig (List Byte) Bytes).compactionStream
      (KWayMerge.mergeAll InternalValue.le [[handleEntry 107 5 0 0], [handleEntry 107 10 1 0]]) =
      [handleEntry 107 10 1 0, handleEntry 107 5 0 0] ∧
    HandlesValid [flushedFile, ingestedFile] [handleEntry 107 10 1 0, handleEntry 107 5 0 0] ∧
    (RelocatingCompaction.new [flushedFile, ingestedFile] (fun _ => 0) (blobWriterFrom 2)).writeAll
      [handleEntry 107 10 1 0, handleEntry 107 5 0 0] = .error .exhausted := by
  refine ⟨rfl, rfl, by decide, ?_, rfl⟩
  intro e he _
  rcases mem_pair.1 he with rfl | rfl
  · exact ⟨_, BlobIndirection.decode_encode _, fun _ => ⟨[2], rfl⟩⟩
  · exact ⟨_, BlobIndirection.decode_encode _, fun _ => ⟨[1], rfl⟩⟩

/-- Two flushes, the second of which writes key 107 again. -/
def twoFiles : List (BlobFile (List Byte)) :=
  [⟨0, Compression.none, [oneByteFrame 107 5 1, oneByteFrame 109 3 3]⟩,
    ⟨1, Compression.none, [oneByteFrame 107 8 2, oneByteFrame 108 7 4]⟩]

def survivors : List (InternalValue (List Byte) Bytes) :=
  [handleEntry 107 8 1 0, handleEntry 108 7 1 44, handleEntry 109 3 0 44]

theorem survivors_valid : HandlesValid twoFiles survivors := by
  intro e he _
  simp only [survivors, mem_cons, not_mem_nil, or_false] at he
  rcases he with rfl | rfl | rfl
  · exact ⟨_, BlobIndirection.decode_encode _, fun _ => ⟨[2], rfl⟩⟩
  · exact ⟨_, BlobIndirection.decode_encode _, fun _ => ⟨[4], rfl⟩⟩
  · exact ⟨_, BlobIndirection.decode_encode _, fun _ => ⟨[3], rfl⟩⟩

/-- The older version of key 107 is dropped, and both files are rewritten. -/
theorem survivors_relocate :
    (⟨10, false, none, []⟩ : StreamConfig (List Byte) Bytes).compactionStream
      (KWayMerge.mergeAll InternalValue.le [[handleEntry 107 5 0 0, handleEntry 109 3 0 44],
        [handleEntry 107 8 1 0, handleEntry 108 7 1 44]]) = survivors ∧
      Relocates twoFiles (fun _ => 0) (blobWriterFrom 2) survivors := by
  refine ⟨by decide, ?_⟩
  refine (relocates_iff twoFiles (by decide) (blobWriterFrom 2) rfl (fun _ => 0) survivors
    survivors_valid).2 ⟨?_, by decide⟩
  -- the frame of the dropped version lies on the way to key 108
  change InStep _ ([] ++ (1, ⟨oneByteFrame 107 8 2, 0, 44⟩) ::
    ([(0, ⟨oneByteFrame 107 5 1, 0, 44⟩)] ++ (1, ⟨oneByteFrame 108 7 4, 44, 88⟩) ::
      ([] ++ (0, ⟨oneByteFrame 109 3 3, 44, 88⟩) :: [])))
  exact .cons nofun rfl rfl rfl (.cons (by decide) rfl rfl rfl (.cons nofun rfl rfl rfl .nil))

theorem survivors_inStep : InStep (refsInto (twoFiles.map (·.id)) survivors)
    (mergeScan (fun _ => 0) twoFiles) := by
  apply inStep_of_headers (by decide) ⟨by unfold headerLt; decide, by decide⟩ _ survivors_valid
    (by unfold headerLt; decide)
  have hframes : ∀ e ∈ survivors, ∀ i ∈ BlobIndirection.decode e.value, ∀ file ∈ twoFiles,
      file.id = i.vhandle.blobFileId → ∀ x ∈ file.scan, x.offset = i.vhandle.offset →
        x.seqno = e.seqno := by decide
  rintro e he i hi c f ⟨-, file, hfile, hid, -, x, hx, rfl, hoffset⟩
  exact hframes e he i (InternalValue.refInto_eq_some hi).2.1 file hfile hid x hx hoffset

end Example

end LsmTree
