import LsmTree.Table.BlockSeek
import LsmTree.Table.DataBlock

/-! The point read of a data block. -/
namespace LsmTree

open Codec DoubleEnded List Option Nat

namespace DataBlock

abbrev Cursor := Decoder (InternalValue Bytes Bytes) (Bytes × ℕ)

section Read

variable (cmp : Bytes → Bytes → Ordering) (hash64 : Bytes → ℕ) (needle : Bytes) (seqno : ℕ)

def notPast (head : Bytes × ℕ) : Bool :=
  match cmp head.1 needle with
  | .lt => true
  | .eq => decide (seqno ≤ head.2)
  | .gt => false

def seekDataBlock (d : Cursor) : Bool × Cursor := d.seek (notPast cmp needle seqno) false

/-- The first part of `point_read_with`: whether there is anything to scan, and from where. -/
def locate (b : EncodedBlock (InternalValue Bytes Bytes) (Bytes × ℕ)) : Option (Bool × Cursor) :=
  match b.hashIndex[hash64 needle % b.hashIndex.length]? with
  | none => some (seekDataBlock cmp needle seqno (Decoder.new b))
  | some marker =>
    if marker = markerFree then some (false, Decoder.new b)
    else if marker = markerConflict then some (seekDataBlock cmp needle seqno (Decoder.new b))
    else b.binaryIndex[marker.val]?.map fun offset => (true, (Decoder.new b).setLoOffset offset)

/-- The scan of `point_read_with`; there are fewer entries than bytes. -/
def scanFor : ℕ → Cursor → Option (InternalValue Bytes Bytes)
  | 0, _ => none
  | fuel + 1, d =>
    match d.next with
    | (none, _) => none
    | (some item, d) =>
      match cmp item.userKey needle with
      | .gt => none
      | .lt => scanFor fuel d
      | .eq => if seqno ≤ item.seqno then scanFor fuel d else some item

/-- `point_read`; the outer `none` is an error. -/
def pointRead (data : Bytes) : Option (Option (InternalValue Bytes Bytes)) := do
  let b ← openBlock decodable data
  let (positioned, d) ← locate cmp hash64 needle seqno b
  if positioned then pure (scanFor cmp needle seqno (b.entriesEnd + 1) d) else pure none

end Read

def Sorted (cmp : Bytes → Bytes → Ordering) (items : List (InternalValue Bytes Bytes)) : Prop :=
  items.Pairwise fun a b =>
    cmp a.userKey b.userKey = .lt ∨ a.userKey = b.userKey ∧ b.seqno ≤ a.seqno

def wanted (needle : Bytes) (seqno : ℕ) (e : InternalValue Bytes Bytes) : Bool :=
  decide (e.userKey = needle ∧ e.seqno < seqno)

section Lookup

variable {cmp : Bytes → Bytes → Ordering} [Std.TransCmp cmp] [Std.LawfulEqCmp cmp]
  {hash64 : Bytes → ℕ} {needle : Bytes} {seqno : ℕ} {items : List (InternalValue Bytes Bytes)}

omit [Std.TransCmp cmp] in
theorem wanted_of_notPast {e : InternalValue Bytes Bytes}
    (h : notPast cmp needle seqno (e.userKey, e.seqno) = true) : wanted needle seqno e = false := by
  apply decide_eq_false
  rintro ⟨rfl, hlt⟩
  simp only [notPast, Std.ReflCmp.compare_self, decide_eq_true_eq] at h
  omega

theorem notPast_mono (hs : Sorted cmp items) : items.Pairwise fun a b =>
    notPast cmp needle seqno (b.userKey, b.seqno) = true →
      notPast cmp needle seqno (a.userKey, a.seqno) = true := by
  apply hs.imp
  rintro a b (hlt | ⟨heq, hle⟩) hb
  · have hlt' : cmp a.userKey needle = .lt := by
      cases hcmp : cmp b.userKey needle with
      | lt => exact Std.TransCmp.lt_trans hlt hcmp
      | eq =>
        rw [Std.LawfulEqCmp.eq_of_compare hcmp] at hlt
        exact hlt
      | gt =>
        rw [notPast, hcmp] at hb
        cases hb
    rw [notPast, hlt']
  · rw [notPast, heq]
    rw [notPast] at hb
    cases hcmp : cmp b.userKey needle with
    | lt => rfl
    | eq =>
      rw [hcmp] at hb
      exact decide_eq_true ((of_decide_eq_true hb).trans hle)
    | gt =>
      rw [hcmp] at hb
      cases hb

omit [Std.TransCmp cmp] in
theorem scanFor_spec {Rel : Cursor → List (InternalValue Bytes Bytes) → Prop} (hR : YieldsFront Rel)
    {fuel : ℕ} {d : Cursor} (hs : Sorted cmp items) (h : Rel d items) (hfuel : items.length < fuel) :
    scanFor cmp needle seqno fuel d = items.find? (wanted needle seqno) := by
  induction items generalizing d fuel with
  | nil =>
    obtain ⟨fuel, rfl⟩ := exists_eq_add_one_of_ne_zero (ne_zero_of_lt hfuel)
    obtain ⟨d', hnext, -⟩ := hR.next_nil h
    rw [scanFor, show d.next = _ from hnext]
    rfl
  | cons e items ih =>
    obtain ⟨fuel, rfl⟩ := exists_eq_add_one_of_ne_zero (ne_zero_of_lt hfuel)
    obtain ⟨he, hs⟩ := pairwise_cons.1 hs
    obtain ⟨d', hnext, h'⟩ := hR.next_cons h
    have ih := @ih fuel d' hs h' (by rw [length_cons] at hfuel; omega)
    rw [scanFor, show d.next = _ from hnext]
    dsimp only
    cases hcmp : cmp e.userKey needle with
    | gt =>
      -- every later key is greater still
      have hpast : ∀ a ∈ e :: items, ¬ wanted needle seqno a = true := by
        intro a ha hw
        obtain ⟨rfl, -⟩ := of_decide_eq_true hw
        rcases mem_cons.1 ha with rfl | ha
        · cases hcmp.symm.trans Std.ReflCmp.compare_self
        · rcases he a ha with hlt | ⟨heq, -⟩
          · cases hcmp.symm.trans hlt
          · rw [heq] at hcmp
            cases hcmp.symm.trans Std.ReflCmp.compare_self
      exact (find?_eq_none.2 hpast).symm
    | lt =>
      have hnot : notPast cmp needle seqno (e.userKey, e.seqno) = true := by rw [notPast, hcmp]
      have hne := wanted_of_notPast hnot
      rw [find?_cons_of_neg (by rw [hne]; exact Bool.false_ne_true)]
      exact ih
    | eq =>
      dsimp only
      by_cases hle : seqno ≤ e.seqno
      · have hnot : notPast cmp needle seqno (e.userKey, e.seqno) = true := by
          rw [notPast, hcmp]
          exact decide_eq_true hle
        have hne := wanted_of_notPast hnot
        rw [if_pos hle, find?_cons_of_neg (by rw [hne]; exact Bool.false_ne_true)]
        exact ih
      · have heq : wanted needle seqno e = true :=
          decide_eq_true ⟨Std.LawfulEqCmp.eq_of_compare hcmp, not_le.1 hle⟩
        rw [if_neg hle, find?_cons_of_pos heq]

variable {b : EncodedBlock (InternalValue Bytes Bytes) (Bytes × ℕ)}

omit [Std.TransCmp cmp] in
theorem scanFor_head (L : Layout b (fun e => (e.userKey, e.seqno)) items) (hs : Sorted cmp items)
    {j : ℕ} {lo : LoScanner} (hlo : L.LoAt lo j 0) (hj : j * b.restartInterval < items.length)
    (hbefore : ∀ a ∈ items.take (j * b.restartInterval), wanted needle seqno a = false) :
    scanFor cmp needle seqno (b.entriesEnd + 1) { Decoder.new b with lo := lo } =
      items.find? (wanted needle seqno) := by
  have hlowered : Decoder.Lowered (fun e => (e.userKey, e.seqno)) items
      { Decoder.new b with lo := lo } (items.drop (j * b.restartInterval)) :=
    Decoder.lowered_fresh (d := { Decoder.new b with lo := lo }) L ⟨j, 0, rfl, hlo⟩
      ⟨rfl, rfl, rfl⟩ hj.le
  have hfuel : (items.drop (j * b.restartInterval)).length < b.entriesEnd + 1 := by
    have hle := L.le_off le_rfl
    have hend := L.off_end
    rw [length_drop]
    omega
  have hnone : (items.take (j * b.restartInterval)).find? (wanted needle seqno) = none :=
    find?_eq_none.2 fun a ha => Bool.eq_false_iff.1 (hbefore a ha)
  rw [scanFor_spec (Decoder.lowered_yieldsFront _ items) (hs.sublist (drop_sublist _ _))
    hlowered hfuel]
  conv_rhs => rw [← take_append_drop (j * b.restartInterval) items, find?_append, hnone]
  rfl

theorem scanFor_seek (L : Layout b (fun e => (e.userKey, e.seqno)) items) (hs : Sorted cmp items)
    (needle : Bytes) (seqno : ℕ) :
    ∃ d, seekDataBlock cmp needle seqno (Decoder.new b) = (true, d) ∧
      scanFor cmp needle seqno (b.entriesEnd + 1) d = items.find? (wanted needle seqno) := by
  have hmono := @notPast_mono cmp _ _ needle seqno items hs
  obtain ⟨j, lo, hseek, hlo, hj, hhead, -⟩ :=
    Decoder.seek_spec (d := Decoder.new b) L hmono (Bool.false_and _)
  refine ⟨_, hseek, scanFor_head L hs hlo hj fun a ha => ?_⟩
  exact wanted_of_notPast (Decoder.forall_mem_take (d := Decoder.new b) L hmono hhead a ha)

section HashIndex

variable (L : Layout b (fun e => (e.userKey, e.seqno)) items)
  (hmarks : ∀ j r a, r < b.restartInterval → items[j * b.restartInterval + r]? = some a →
    Marks b.hashIndex (hash64 a.userKey) j)
  {marker : Fin 256} (hget : b.hashIndex[hash64 needle % b.hashIndex.length]? = some marker)
include L hmarks hget

theorem marker_of_mem {i : ℕ} {a : InternalValue Bytes Bytes} (ha : items[i]? = some a)
    (hkey : a.userKey = needle) :
    marker ≠ markerFree ∧ (marker ≠ markerConflict → marker.val = i / b.restartInterval) := by
  have hpos := L.interval_pos
  have hi : i / b.restartInterval * b.restartInterval + i % b.restartInterval = i :=
    div_add_mod' i _
  obtain ⟨v, hv, hfree, hname⟩ := hmarks (i / b.restartInterval) (i % b.restartInterval) a
    (mod_lt _ hpos) (by rwa [hi])
  rw [hkey, hget] at hv
  obtain rfl := Option.some.inj hv
  exact ⟨hfree, hname⟩

theorem find?_of_free (hfree : marker = markerFree) : items.find? (wanted needle seqno) = none := by
  apply find?_eq_none.2
  intro a ha hw
  obtain ⟨i, hi⟩ := mem_iff_getElem?.1 ha
  exact (marker_of_mem L hmarks hget hi (of_decide_eq_true hw).1).1 hfree

theorem wanted_before_interval (hconflict : marker ≠ markerConflict) :
    ∀ a ∈ items.take (marker.val * b.restartInterval), wanted needle seqno a = false := by
  intro a ha
  apply decide_eq_false
  rintro ⟨hkey, -⟩
  obtain ⟨i, hi, rfl⟩ := mem_take_iff_getElem.1 ha
  obtain ⟨-, hname⟩ := marker_of_mem L hmarks hget (getElem?_eq_getElem (by omega)) hkey
  have hlt : i / b.restartInterval < marker.val := Nat.div_lt_of_lt_mul (by rw [mul_comm]; omega)
  exact absurd (hname hconflict) hlt.ne'

end HashIndex

theorem locate_spec (L : Layout b (fun e => (e.userKey, e.seqno)) items) (hs : Sorted cmp items)
    (hhash : b.HashIndexed (fun a => hash64 a.userKey) items) (hnames : b.NamesIntervals)
    (needle : Bytes) (seqno : ℕ) :
    ∃ positioned d, locate cmp hash64 needle seqno b = some (positioned, d) ∧
      (if positioned then scanFor cmp needle seqno (b.entriesEnd + 1) d else none) =
        items.find? (wanted needle seqno) := by
  obtain ⟨d, hseek, hscan⟩ := scanFor_seek L hs needle seqno
  unfold locate
  cases hget : b.hashIndex[hash64 needle % b.hashIndex.length]? with
  | none => exact ⟨true, d, congrArg some hseek, hscan⟩
  | some marker =>
    have hmem : marker ∈ b.hashIndex := mem_of_getElem? hget
    have hmarks := hhash.resolve_left (ne_nil_of_mem hmem)
    dsimp only
    by_cases hfree : marker = markerFree
    · rw [if_pos hfree]
      exact ⟨false, _, rfl, (find?_of_free L hmarks hget hfree).symm⟩
    · rw [if_neg hfree]
      by_cases hconflict : marker = markerConflict
      · rw [if_pos hconflict]
        exact ⟨true, d, congrArg some hseek, hscan⟩
      · have hlt := ((hnames marker hmem).resolve_left hfree).resolve_left hconflict
        have hhead := (L.index_length marker.val).1 hlt
        rw [if_neg hconflict, L.index_get _ hhead]
        refine ⟨true, _, rfl, scanFor_head L hs (Decoder.loAt_head (d := Decoder.new b) L) hhead ?_⟩
        exact wanted_before_interval L hmarks hget hconflict

/-- The point read of an encoded block, for any comparator, hash function, restart interval and
number of buckets: where the block opens at all, the read gives the first version of the key below
the snapshot. -/
theorem pointRead_encodeInto (hash64 : Bytes → ℕ) {restartInterval bucketCount : ℕ}
    (hpos : 1 ≤ restartInterval) (hinterval : restartInterval < 2 ^ 8)
    (hbuckets : bucketCount < 2 ^ 32) (hs : Sorted cmp items)
    (hstorable : ∀ e ∈ items, Storable e) (needle : Bytes) (seqno : ℕ) :
    pointRead cmp hash64 needle seqno (encodeInto hash64 restartInterval bucketCount items) =
      (openBlock decodable (encodeInto hash64 restartInterval bucketCount items)).map fun _ =>
        items.find? (wanted needle seqno) := by
  unfold pointRead
  cases hopen : openBlock decodable (encodeInto hash64 restartInterval bucketCount items) with
  | none => rfl
  | some b =>
    obtain ⟨⟨L⟩, hhash, hnames⟩ :=
      codes.openBlock_encodeInto_some hstorable hash64 hpos hinterval hbuckets hopen
    obtain ⟨positioned, d, hlocate, hscan⟩ := locate_spec L hs hhash hnames needle seqno
    simp only [bind_eq_bind, bind_some, hlocate, map_some, ← hscan]
    cases positioned <;> rfl

end Lookup

/-- Three versions of a key over two intervals, and a tombstone of another key. -/
def versions : List (InternalValue Bytes Bytes) :=
  [⟨[1], 9, .value, [7]⟩, ⟨[1], 5, .value, [8]⟩, ⟨[1], 2, .value, [6]⟩, ⟨[2], 3, .tombstone, []⟩]

/-- The two keys share a bucket; the bucket of the key `[1, 1]` is free. -/
theorem versions_pointRead :
    pointRead compare List.length [1] 5 (encodeInto List.length 2 3 versions) =
      some (some ⟨[1], 2, .value, [6]⟩) ∧
    pointRead compare List.length [2] 3 (encodeInto List.length 2 3 versions) = some none ∧
    pointRead compare List.length [1, 1] 9 (encodeInto List.length 2 3 versions) = some none := by
  have hsorted : Sorted compare versions := by
    unfold Sorted
    decide
  have hstorable : ∀ e ∈ versions, Storable e := by
    simp only [versions, forall_mem_cons]
    refine ⟨⟨?_, ?_, ?_, ?_⟩, ⟨?_, ?_, ?_, ?_⟩, ⟨?_, ?_, ?_, ?_⟩, ⟨?_, ?_, ?_, ?_⟩, nofun⟩ <;> decide
  have hopen : (openBlock decodable (encodeInto List.length 2 3 versions)).isSome = true := by
    decide +kernel
  obtain ⟨b, hb⟩ := isSome_iff_exists.1 hopen
  have hread := fun needle seqno => pointRead_encodeInto List.length (by decide : 1 ≤ 2) (by decide)
    (by decide : 3 < 2 ^ 32) hsorted hstorable needle seqno
  rw [hb] at hread
  exact ⟨hread [1] 5, hread [2] 3, hread [1, 1] 9⟩

end DataBlock

end LsmTree
