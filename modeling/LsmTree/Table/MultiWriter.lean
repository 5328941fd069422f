import LsmTree.Key
import LsmTree.Version.Basic

/-! The table writer of flushes and compactions. `MultiWriter` cuts one sorted stream into
tables and hands its range tombstones out over them. -/
namespace LsmTree

/-- A written table. `keyRange` is the range of the metadata, which lookups trust. -/
structure Table (K V : Type*) where
  id : ℕ
  keyRange : KeyRange K
  entries : List (InternalValue K V)
  rangeTombstones : List (RangeTombstone K)
  deriving DecidableEq, Repr

instance {K V : Type*} : TableMeta (Table K V) K := ⟨Table.id, Table.keyRange⟩

def Table.seqnos {K V : Type*} (t : Table K V) : List ℕ :=
  t.entries.map (·.seqno) ++ t.rangeTombstones.map (·.seqno)

/-- One table under construction; `firstKey` and `lastKey` become its key range. `registered` counts
the items whose blocks are in the file. -/
structure Writer (K V : Type*) where
  tableId : ℕ
  items : List (InternalValue K V)
  registered : ℕ
  firstKey : Option K
  lastKey : Option K
  rangeTombstones : List (RangeTombstone K)

variable {K V : Type*}

namespace Writer

def new (tableId : ℕ) : Writer K V := ⟨tableId, [], 0, none, none, []⟩

def write (w : Writer K V) (item : InternalValue K V) : Writer K V :=
  { w with
    items := w.items ++ [item]
    firstKey := some (w.firstKey.getD item.userKey) }

/-- `register_written_block` for every block up to the `n`-th item: the last key is set here and
not when an item is written. -/
def registerBlocks (w : Writer K V) (n : ℕ) : Writer K V :=
  if w.registered < n then
    { w with
      registered := n
      lastKey := (w.items.take n).getLast?.map (·.userKey) }
  else w

def writeRangeTombstone (w : Writer K V) (rt : RangeTombstone K) : Writer K V :=
  { w with rangeTombstones := w.rangeTombstones ++ [rt] }

section Finish

variable [RawKey K] [Inhabited V]

/-- A table of range tombstones only gets one synthetic weak tombstone, and the byte-order
hull of its tombstones as key range. A block of the weak tombstone that is registered after that
sets the last key once more. -/
def finishTombstonesOnly (registered : List (InternalValue K V) → ℕ) (w : Writer K V) :
    Option (Table K V) :=
  match w.rangeTombstones, RangeTombstone.sentinel w.rangeTombstones with
  | rt :: rest, some s =>
    let marker := ⟨s.start, s.seqno, .weakTombstone, default⟩
    some {
      id := w.tableId
      keyRange := ⟨rest.foldl (fun k rt => minBytes k rt.start) rt.start,
        if registered [marker] = 0 then s.start
        else rest.foldl (fun k rt => maxBytes k rt.stop) rt.stop⟩
      entries := [marker]
      rangeTombstones := w.rangeTombstones }
  | _, _ => none

/-- The blocks still in the queue are registered first. -/
def finish (registered : List (InternalValue K V) → ℕ) (w : Writer K V) : Option (Table K V) :=
  match w.items, w.firstKey, (w.registerBlocks w.items.length).lastKey with
  | _ :: _, some first, some last =>
    some {
      id := w.tableId
      keyRange := ⟨first, last⟩
      entries := w.items
      rangeTombstones := w.rangeTombstones }
  | _, _, _ => w.finishTombstonesOnly registered

end Finish

end Writer

section WriteRts

variable [LinearOrder K] [RawKey K]

/-- A clipped tombstone widens the key range only when it ends strictly before the next
table begins. -/
def widenLastKey (clipUpper : Option K) (stop : K) (w : Writer K V) : Writer K V :=
  match clipUpper, w.lastKey with
  | some upper, some existing =>
    if stop < upper ∧ existing < stop then { w with lastKey := some stop } else w
  | _, _ => w

def writeClipped (clipUpper : Option K) (first maxExclusive : K) (w : Writer K V)
    (rt : RangeTombstone K) : Writer K V :=
  match rt.intersectOpt first maxExclusive with
  | some clipped => (widenLastKey clipUpper clipped.stop w).writeRangeTombstone clipped
  | none => w

def writeFromFirst (first : K) (w : Writer K V) (rt : RangeTombstone K) : Writer K V :=
  match rt.clipStart first with
  | some clipped => w.writeRangeTombstone clipped
  | none => w

/-- The flush mode: tombstones stay whole and widen the key range to both sides. -/
def writeWidening (w : Writer K V) (rt : RangeTombstone K) : Writer K V :=
  { w with
    firstKey := some (match w.firstKey with
      | some existing => if rt.start < existing then rt.start else existing
      | none => rt.start)
    lastKey := some (match w.lastKey with
      | some existing => if existing < rt.stop then rt.stop else existing
      | none => rt.stop)
    rangeTombstones := w.rangeTombstones ++ [rt] }

/-- `write_rts_to_writer`; in clip mode a table takes the parts from its first key up to the first
key of the next table. -/
def writeRtsToWriter (tombstones : List (RangeTombstone K)) (clip : Bool) (w : Writer K V)
    (clipUpper : Option K) : Writer K V :=
  match w.firstKey, w.lastKey with
  | some first, some last =>
    if clip then
      match clipUpper.or (upperBoundExclusive last) with
      | some maxExclusive => tombstones.foldl (writeClipped clipUpper first maxExclusive) w
      | none => tombstones.foldl (writeFromFirst first) w
    else tombstones.foldl writeWidening w
  | _, _ => tombstones.foldl Writer.writeRangeTombstone w

end WriteRts

/-- `outputFull n items` says whether the `n`-th writer has reached the target size, and
`registered items` how many items are in registered blocks once the last block is spilled: all of
them (`List.length`), or fewer when a pool compresses the blocks. Both are left open. -/
structure MultiWriter (K V : Type*) where
  tableIds : ℕ → ℕ
  outputFull : ℕ → List (InternalValue K V) → Bool
  registered : List (InternalValue K V) → ℕ
  clipRangeTombstones : Bool
  rangeTombstones : List (RangeTombstone K)
  rotations : ℕ
  writer : Writer K V
  currentKey : Option K
  results : List (Table K V)

namespace MultiWriter

variable [LinearOrder K] [RawKey K] [Inhabited V]

def new (tableIds : ℕ → ℕ) (outputFull : ℕ → List (InternalValue K V) → Bool)
    (registered : List (InternalValue K V) → ℕ) (clip : Bool)
    (rangeTombstones : List (RangeTombstone K)) : MultiWriter K V :=
  ⟨tableIds, outputFull, registered, clip, rangeTombstones, 0, Writer.new (tableIds 0), none, []⟩

/-- `spill_block`, then `write_rts_to_writer`, then the end of the table. -/
def close (m : MultiWriter K V) (clipUpper : Option K) : Option (Table K V) :=
  let spilled := m.writer.registerBlocks (m.registered m.writer.items)
  (writeRtsToWriter m.rangeTombstones m.clipRangeTombstones spilled clipUpper).finish m.registered

def rotate (m : MultiWriter K V) : MultiWriter K V :=
  { m with
    rotations := m.rotations + 1
    writer := Writer.new (m.tableIds (m.rotations + 1))
    results := m.results ++ (m.close m.currentKey).toList }

/-- A change of user key is where a table may be cut; versions of one key stay together. -/
def write (m : MultiWriter K V) (item : InternalValue K V) : MultiWriter K V :=
  let m :=
    if m.currentKey = some item.userKey then m
    else
      let m := { m with currentKey := some item.userKey }
      if m.outputFull m.rotations m.writer.items then m.rotate else m
  { m with writer := m.writer.write item }

def finish (m : MultiWriter K V) : List (Table K V) :=
  m.results ++ (m.close none).toList

def writeAll (m : MultiWriter K V) (items : List (InternalValue K V)) : List (Table K V) :=
  (items.foldl write m).finish

end MultiWriter

/-- The part of the stream that goes into one table, and the first key of the next table. -/
structure Window (K V : Type*) where
  items : List (InternalValue K V)
  upper : Option K

section Windows

variable [LinearOrder K] [RawKey K] [Inhabited V]

/-- Where the writer cuts, from the items already in the current table and the last key. -/
def windowsFrom (outputFull : ℕ → List (InternalValue K V) → Bool) :
    ℕ → List (InternalValue K V) → Option K → List (InternalValue K V) → List (Window K V)
  | _, current, _, [] => [⟨current, none⟩]
  | n, current, key, item :: items =>
    if key ≠ some item.userKey ∧ outputFull n current = true then
      ⟨current, some item.userKey⟩ ::
        windowsFrom outputFull (n + 1) [item] (some item.userKey) items
    else windowsFrom outputFull n (current ++ [item]) (some item.userKey) items

def windows (outputFull : ℕ → List (InternalValue K V) → Bool)
    (items : List (InternalValue K V)) : List (Window K V) :=
  windowsFrom outputFull 0 [] none items

def Writer.of (tableId : ℕ) (items : List (InternalValue K V)) : Writer K V :=
  items.foldl Writer.write (Writer.new tableId)

/-- The table that a window becomes. -/
def Window.seal (w : Window K V) (registered : List (InternalValue K V) → ℕ) (clip : Bool)
    (rts : List (RangeTombstone K)) (tableId : ℕ) : Option (Table K V) :=
  (writeRtsToWriter rts clip ((Writer.of tableId w.items).registerBlocks (registered w.items))
    w.upper).finish registered

def sealFrom (registered : List (InternalValue K V) → ℕ) (clip : Bool)
    (rts : List (RangeTombstone K)) (tableIds : ℕ → ℕ) : ℕ → List (Window K V) → List (Table K V)
  | _, [] => []
  | n, w :: ws => (w.seal registered clip rts (tableIds n)).toList ++
      sealFrom registered clip rts tableIds (n + 1) ws

omit [LinearOrder K] [RawKey K] [Inhabited V] in
theorem Writer.of_append (tableId : ℕ) (items : List (InternalValue K V))
    (item : InternalValue K V) :
    (Writer.of tableId items).write item = Writer.of tableId (items ++ [item]) := by
  simp [Writer.of, List.foldl_append]

omit [LinearOrder K] [RawKey K] [Inhabited V] in
theorem Writer.new_write (tableId : ℕ) (item : InternalValue K V) :
    (Writer.new tableId).write item = Writer.of tableId [item] := rfl

omit [LinearOrder K] [RawKey K] [Inhabited V] in
theorem Writer.of_eq (tableId : ℕ) (items : List (InternalValue K V)) :
    Writer.of tableId items =
      ⟨tableId, items, 0, items.head?.map (·.userKey), none, []⟩ := by
  induction items using List.reverseRecOn with
  | nil => rfl
  | append_singleton items item ih =>
    rw [← Writer.of_append, ih]
    cases items <;> simp [Writer.write]

omit [LinearOrder K] [RawKey K] [Inhabited V] in
@[simp] theorem Writer.of_items (tableId : ℕ) (items : List (InternalValue K V)) :
    (Writer.of tableId items).items = items := by rw [Writer.of_eq]

theorem MultiWriter.foldl_write_finish (m : MultiWriter K V)
    (items current : List (InternalValue K V))
    (hw : m.writer = Writer.of (m.tableIds m.rotations) current) :
    (items.foldl MultiWriter.write m).finish = m.results ++
      sealFrom m.registered m.clipRangeTombstones m.rangeTombstones m.tableIds m.rotations
        (windowsFrom m.outputFull m.rotations current m.currentKey items) := by
  induction items generalizing m current with
  | nil =>
    simp only [List.foldl_nil, finish, close, Writer.of_items, windowsFrom, sealFrom, Window.seal, List.append_nil, hw]
  | cons item items ih =>
    rw [List.foldl_cons]
    by_cases hkey : m.currentKey = some item.userKey
    · rw [ih (m.write item) (current ++ [item])
        (by simp [MultiWriter.write, hkey, hw, Writer.of_append])]
      simp [MultiWriter.write, windowsFrom, hkey]
    · by_cases hfull : m.outputFull m.rotations current = true
      · rw [ih (m.write item) [item]
          (by simp [MultiWriter.write, rotate, hkey, hw, hfull, Writer.new_write])]
        simp [MultiWriter.write, rotate, close, windowsFrom, hkey, hfull, hw, sealFrom, Window.seal]
      · rw [ih (m.write item) (current ++ [item])
          (by simp [MultiWriter.write, hkey, hw, hfull, Writer.of_append])]
        simp [MultiWriter.write, windowsFrom, hkey, hfull, hw]

theorem MultiWriter.writeAll_new (tableIds : ℕ → ℕ)
    (outputFull : ℕ → List (InternalValue K V) → Bool)
    (registered : List (InternalValue K V) → ℕ) (clip : Bool)
    (rts : List (RangeTombstone K)) (items : List (InternalValue K V)) :
    (MultiWriter.new tableIds outputFull registered clip rts).writeAll items =
      sealFrom registered clip rts tableIds 0 (windows outputFull items) :=
  (new tableIds outputFull registered clip rts).foldl_write_finish items [] rfl

end Windows

section Clip

variable [LinearOrder K]
variable {rts : List (RangeTombstone K)} {clipUpper : Option K} {first max last : K}

/-- The last key may be widened; in clip mode by less than the table's share. -/
def Widens (clip : Bool) (clipUpper : Option K) (last max : K) : Prop :=
  last ≤ max ∧ (clip = true →
    (∀ upper ∈ clipUpper, last < upper → max < upper) ∧ (clipUpper = none → max = last))

theorem Widens.refl (clip : Bool) (clipUpper : Option K) (last : K) :
    Widens clip clipUpper last last :=
  ⟨le_rfl, fun _ => ⟨fun _ _ h => h, fun _ => rfl⟩⟩

theorem writeClipped_eq (w : Writer K V) (rt : RangeTombstone K) (hlast : w.lastKey = some last) :
    ∃ last', Widens true clipUpper last last' ∧ writeClipped clipUpper first max w rt =
      { w with
        lastKey := some last'
        rangeTombstones := w.rangeTombstones ++ (rt.intersectOpt first max).toList } := by
  unfold writeClipped
  cases hrt : rt.intersectOpt first max with
  | none => exact ⟨last, .refl .., by simp [← hlast]⟩
  | some clipped =>
    cases clipUpper with
    | none =>
      exact ⟨last, .refl .., by simp [widenLastKey, Writer.writeRangeTombstone, ← hlast]⟩
    | some upper =>
      by_cases hw : clipped.stop < upper ∧ last < clipped.stop
      · refine ⟨clipped.stop, ⟨hw.2.le, fun _ => ⟨?_, nofun⟩⟩, ?_⟩
        · rintro _ ⟨⟩ _
          exact hw.1
        · simp [widenLastKey, Writer.writeRangeTombstone, hlast, hw]
      · exact ⟨last, .refl .., by simp [widenLastKey, Writer.writeRangeTombstone, hlast, hw]⟩

variable (rts first max) in
theorem foldl_writeClipped (w : Writer K V) (hlast : w.lastKey = some last) :
    ∃ last', Widens true clipUpper last last' ∧ rts.foldl (writeClipped clipUpper first max) w =
      { w with
        lastKey := some last'
        rangeTombstones := w.rangeTombstones ++ rts.filterMap (·.intersectOpt first max) } := by
  induction rts generalizing w last with
  | nil => exact ⟨last, .refl .., by simp [← hlast]⟩
  | cons rt rts ih =>
    obtain ⟨mid, ⟨hmid, hmid'⟩, heq⟩ := writeClipped_eq w rt hlast
    obtain ⟨last', ⟨hle, hlast'⟩, heq'⟩ := ih (writeClipped clipUpper first max w rt) (by rw [heq])
    obtain ⟨hmidU, hmidN⟩ := hmid' rfl
    obtain ⟨hU, hN⟩ := hlast' rfl
    refine ⟨last', ⟨hmid.trans hle, fun _ => ⟨fun u hu h => hU u hu (hmidU u hu h),
      fun h => (hN h).trans (hmidN h)⟩⟩, ?_⟩
    rw [List.foldl_cons, heq', heq]
    cases hrt : rt.intersectOpt first max <;> simp [hrt]

theorem foldl_writeFromFirst (w : Writer K V) :
    rts.foldl (writeFromFirst first) w =
      { w with
        rangeTombstones := w.rangeTombstones ++ rts.filterMap (·.clipStart first) } := by
  induction rts generalizing w with
  | nil => simp
  | cons rt rts ih =>
    rw [List.foldl_cons, ih]
    unfold writeFromFirst
    cases hrt : rt.clipStart first <;> simp [hrt, Writer.writeRangeTombstone]

omit [LinearOrder K] in
theorem foldl_writeRangeTombstone (w : Writer K V) :
    rts.foldl Writer.writeRangeTombstone w =
      { w with rangeTombstones := w.rangeTombstones ++ rts } := by
  induction rts generalizing w with
  | nil => simp
  | cons rt rts ih => simp [ih, Writer.writeRangeTombstone]

theorem foldl_writeWidening (rts : List (RangeTombstone K)) {w : Writer K V}
    (hf : w.firstKey = some first) (hl : w.lastKey = some last) :
    ∃ first' ≤ first, ∃ last' ≥ last, rts.foldl writeWidening w =
      { w with
        firstKey := some first'
        lastKey := some last'
        rangeTombstones := w.rangeTombstones ++ rts } := by
  induction rts generalizing w first last with
  | nil => exact ⟨first, le_rfl, last, le_rfl, by rw [← hf, ← hl, List.append_nil]; rfl⟩
  | cons rt rts ih =>
    have hf' : (writeWidening w rt).firstKey =
        some (if rt.start < first then rt.start else first) := by simp [writeWidening, hf]
    have hl' : (writeWidening w rt).lastKey =
        some (if last < rt.stop then rt.stop else last) := by simp [writeWidening, hl]
    obtain ⟨first', hfirst, last', hlast, heq⟩ := ih hf' hl'
    refine ⟨first', hfirst.trans ?_, last', le_trans ?_ hlast, ?_⟩
    · split <;> order
    · split <;> order
    · rw [List.foldl_cons, heq]
      simp [writeWidening]

end Clip

section Seal

variable [LinearOrder K] [RawKey K]
variable {w : Window K V} {rts : List (RangeTombstone K)} {tableId : ℕ}
variable {registered : List (InternalValue K V) → ℕ}

omit [LinearOrder K] [RawKey K] in
theorem Writer.registerBlocks_of (tableId n : ℕ) (items : List (InternalValue K V)) :
    (Writer.of tableId items).registerBlocks n =
      ⟨tableId, items, n, items.head?.map (·.userKey), (items.take n).getLast?.map (·.userKey),
        []⟩ := by
  rw [Writer.of_eq, registerBlocks]
  cases n <;> simp

/-- What a writer with these keys takes of the tombstones. -/
def tombstonesFor (rts : List (RangeTombstone K)) (clip : Bool) (clipUpper first last : Option K) :
    List (RangeTombstone K) :=
  match clip, first, last with
  | true, some first, some last =>
    match clipUpper.or (upperBoundExclusive last) with
    | some m => rts.filterMap (·.intersectOpt first m)
    | none => rts.filterMap (·.clipStart first)
  | _, _, _ => rts

theorem writeRtsToWriter_eq (rts : List (RangeTombstone K)) (clip : Bool) (w : Writer K V)
    (clipUpper : Option K) {first : K} (hfirst : w.firstKey = some first) :
    ∃ first' ≤ first, ∃ lastKey, (clip = true → first' = first) ∧
      (∀ last ∈ w.lastKey, ∃ max ∈ lastKey, Widens clip clipUpper last max) ∧
      writeRtsToWriter rts clip w clipUpper =
        { w with
          firstKey := some first'
          lastKey := lastKey
          rangeTombstones :=
            w.rangeTombstones ++ tombstonesFor rts clip clipUpper w.firstKey w.lastKey } := by
  have hsame : ∀ last ∈ w.lastKey, ∃ max ∈ w.lastKey, Widens clip clipUpper last max :=
    fun last h => ⟨last, h, .refl ..⟩
  unfold writeRtsToWriter tombstonesFor
  rw [hfirst]
  cases hlast : w.lastKey with
  | none =>
    refine ⟨first, le_rfl, none, fun _ => rfl, by simp, ?_⟩
    cases clip <;> simp only [foldl_writeRangeTombstone, ← hfirst, ← hlast]
  | some last =>
    rw [hlast] at hsame
    cases clip with
    | false =>
      obtain ⟨first', hle, max, hmax, heq⟩ := foldl_writeWidening rts hfirst hlast
      exact ⟨first', hle, some max, nofun, by simpa [Widens] using hmax, heq⟩
    | true =>
      simp only [if_true]
      cases clipUpper.or (upperBoundExclusive last) with
      | none =>
        exact ⟨first, le_rfl, some last, fun _ => rfl, hsame, by
          simp only [foldl_writeFromFirst, ← hfirst, ← hlast]⟩
      | some m =>
        obtain ⟨max, hmax, heq⟩ := @foldl_writeClipped _ _ _ rts clipUpper first m last w hlast
        refine ⟨first, le_rfl, some max, fun _ => rfl, ?_, by simp only [heq, ← hfirst]⟩
        rintro _ ⟨⟩
        exact ⟨max, rfl, hmax⟩

variable [Inhabited V]

omit [LinearOrder K] in
/-- A block that is registered now sets the last key anew. -/
theorem Writer.finish_items {w : Writer K V} {item last : InternalValue K V}
    {items : List (InternalValue K V)} {first : K} (max : K) (hw : w.items = item :: items)
    (hfirst : w.firstKey = some first) (hlast : w.items.getLast? = some last)
    (hmax : w.items.length ≤ w.registered → w.lastKey = some max) :
    w.finish registered = some {
      id := w.tableId
      keyRange := ⟨first, if w.registered < w.items.length then last.userKey else max⟩
      entries := w.items
      rangeTombstones := w.rangeTombstones } := by
  unfold finish registerBlocks
  split_ifs with hlt
  · simp only [List.take_length, hlast, Option.map_some, hfirst]
    rw [hw]
  · simp only [hmax (not_lt.1 hlt), hfirst, hw]

/-- The table of a window with items. -/
structure Window.Sealed (w : Window K V) (registered : List (InternalValue K V) → ℕ) (clip : Bool)
    (rts : List (RangeTombstone K)) (t : Table K V) : Prop where
  entries : t.entries = w.items
  rangeTombstones : t.rangeTombstones = tombstonesFor rts clip w.upper
    (w.items.head?.map (·.userKey)) ((w.items.take (registered w.items)).getLast?.map (·.userKey))
  first : ∀ e ∈ w.items.head?,
    t.keyRange.min ≤ e.userKey ∧ (clip = true → t.keyRange.min = e.userKey)
  last : ∀ e ∈ w.items.getLast?, Widens clip w.upper e.userKey t.keyRange.max

theorem Window.seal_items (hne : w.items ≠ []) (clip : Bool) (tableId : ℕ) :
    ∃ t, w.seal registered clip rts tableId = some t ∧ t.id = tableId ∧
      w.Sealed registered clip rts t := by
  obtain ⟨item, items, hw⟩ := List.exists_cons_of_ne_nil hne
  obtain ⟨last, hlast⟩ : ∃ last, w.items.getLast? = some last :=
    Option.isSome_iff_exists.1 (by simp [hw])
  have hfirst : w.items.head?.map (·.userKey) = some item.userKey := by rw [hw]; rfl
  obtain ⟨first', hle, lastKey, hclip, hmax, heq⟩ := writeRtsToWriter_eq rts clip
    ⟨tableId, w.items, registered w.items, w.items.head?.map (·.userKey),
      (w.items.take (registered w.items)).getLast?.map (·.userKey), []⟩ w.upper hfirst
  have hhead : ∀ e ∈ w.items.head?,
      first' ≤ e.userKey ∧ (clip = true → first' = e.userKey) := by
    rw [hw]
    rintro _ ⟨⟩
    exact ⟨hle, hclip⟩
  unfold Window.seal
  rw [Writer.registerBlocks_of, heq]
  by_cases hlt : registered w.items < w.items.length
  · rw [Writer.finish_items first' hw rfl hlast fun h => absurd hlt (not_lt.2 h), if_pos hlt]
    refine ⟨_, rfl, rfl, rfl, List.nil_append _, hhead, ?_⟩
    rw [hlast]
    rintro _ ⟨⟩
    exact .refl ..
  · rw [not_lt] at hlt
    obtain ⟨max, hmem, hwidens⟩ := hmax last.userKey (by simp [List.take_of_length_le hlt, hlast])
    rw [Writer.finish_items max hw rfl hlast fun _ => hmem, if_neg (not_lt.2 hlt)]
    refine ⟨_, rfl, rfl, rfl, List.nil_append _, hhead, ?_⟩
    rw [hlast]
    rintro _ ⟨⟩
    exact hwidens

theorem Window.seal_nil {clip : Bool} (hw : w.items = []) :
    w.seal registered clip rts tableId =
      (⟨tableId, [], registered [], none, none, rts⟩ : Writer K V).finishTombstonesOnly
        registered := by
  unfold Window.seal writeRtsToWriter
  rw [Writer.registerBlocks_of, hw]
  simp only [List.take_nil, List.head?_nil, List.getLast?_nil, Option.map_none,
    foldl_writeRangeTombstone, List.nil_append]
  rfl

omit [LinearOrder K] in
theorem Writer.finishTombstonesOnly_cons (registered : List (InternalValue K V) → ℕ) (w : Writer K V) {rt : RangeTombstone K}
    {rest : List (RangeTombstone K)} (h : w.rangeTombstones = rt :: rest) :
    ∃ t, w.finishTombstonesOnly registered = some t ∧ t.rangeTombstones = w.rangeTombstones := by
  unfold Writer.finishTombstonesOnly
  rw [h]
  exact ⟨_, rfl, rfl⟩

/-- The keys for which the window's table carries every tombstone it was given. -/
def Window.Covers (w : Window K V) (registered : List (InternalValue K V) → ℕ) (k : K) : Prop :=
  match w.items.head?, (w.items.take (registered w.items)).getLast? with
  | some first, some last =>
    first.userKey ≤ k ∧ ∀ m ∈ w.upper.or (upperBoundExclusive last.userKey), k < m
  | _, _ => True

omit [RawKey K] [Inhabited V] in
theorem exists_filterMap_suppress {clip : RangeTombstone K → Option (RangeTombstone K)}
    {P : Prop} {k : K} {s R : ℕ}
    (h : ∀ rt : RangeTombstone K, (∃ rt' ∈ clip rt, rt'.shouldSuppress k s R = true) ↔
      rt.shouldSuppress k s R = true ∧ P) :
    (∃ rt ∈ rts.filterMap clip, rt.shouldSuppress k s R = true) ↔
      (∃ rt ∈ rts, rt.shouldSuppress k s R = true) ∧ P := by
  constructor
  · rintro ⟨rt', hmem, hs⟩
    obtain ⟨rt, hrt, hclip⟩ := List.mem_filterMap.1 hmem
    have hboth := (h rt).1 ⟨rt', hclip, hs⟩
    exact ⟨⟨rt, hrt, hboth.1⟩, hboth.2⟩
  · rintro ⟨⟨rt, hrt, hs⟩, hP⟩
    obtain ⟨rt', hclip, hs'⟩ := (h rt).2 ⟨hs, hP⟩
    exact ⟨rt', List.mem_filterMap.2 ⟨rt, hrt, hclip⟩, hs'⟩

/-- A sealed window hides exactly what its tombstones hide among the keys it covers. -/
theorem Window.seal_suppress {k : K} {s R : ℕ} :
    (∃ t ∈ w.seal registered true rts tableId, ∃ rt ∈ t.rangeTombstones,
        rt.shouldSuppress k s R = true) ↔
      (∃ rt ∈ rts, rt.shouldSuppress k s R = true) ∧ w.Covers registered k := by
  cases hw : w.items with
  | nil =>
    have hcov : w.Covers registered k := by simp [Window.Covers, hw]
    rw [Window.seal_nil hw, and_iff_left hcov]
    cases rts with
    | nil => simp [Writer.finishTombstonesOnly]
    | cons rt rest =>
      obtain ⟨t, ht, hrts⟩ := Writer.finishTombstonesOnly_cons registered
        (⟨tableId, [], registered [], none, none, rt :: rest⟩ : Writer K V) rfl
      simp [ht, hrts]
  | cons item items =>
    obtain ⟨t, ht, -, hs⟩ := w.seal_items (by simp [hw]) true tableId
    rw [ht]
    simp only [Option.mem_def, Option.some.injEq, exists_eq_left', Window.Covers,
      hs.rangeTombstones, tombstonesFor]
    rw [hw, List.head?_cons]
    cases ((item :: items).take (registered (item :: items))).getLast? with
    | none => simp
    | some last =>
      dsimp only [Option.map_some]
      cases w.upper.or (upperBoundExclusive last.userKey) with
      | none =>
        refine exists_filterMap_suppress fun rt => ?_
        simpa using RangeTombstone.clipStart_suppress
      | some m =>
        refine exists_filterMap_suppress fun rt => ?_
        simpa using RangeTombstone.intersectOpt_suppress

theorem sealFrom_suppress {ws : List (Window K V)} {tableIds : ℕ → ℕ} {n : ℕ} {k : K} {s R : ℕ} :
    (∃ t ∈ sealFrom registered true rts tableIds n ws, ∃ rt ∈ t.rangeTombstones,
        rt.shouldSuppress k s R = true) ↔
      (∃ rt ∈ rts, rt.shouldSuppress k s R = true) ∧ ∃ w ∈ ws, w.Covers registered k := by
  induction ws generalizing n with
  | nil => simp [sealFrom]
  | cons w ws ih =>
    simp only [sealFrom, List.mem_append, or_and_right, exists_or, ih, Option.mem_toList,
      List.mem_cons, exists_eq_left, and_or_left]
    exact or_congr Window.seal_suppress Iff.rfl

end Seal

end LsmTree
