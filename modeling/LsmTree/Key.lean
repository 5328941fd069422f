import LsmTree.Entry
import LsmTree.Theory.Codec

/-! Raw key bytes. -/
namespace LsmTree

open Option

abbrev Byte := Fin 256

/-- Keys are byte strings, whatever order the comparator puts on them. -/
class RawKey (K : Type*) where
  toBytes : K → List Byte
  ofBytes : List Byte → K
  ofBytes_toBytes : ∀ k, ofBytes (toBytes k) = k

instance : RawKey (List Byte) := ⟨id, id, fun _ => rfl⟩

/-- Byte keys under a comparator that reverses their order. -/
abbrev ReversedKey := (List Byte)ᵒᵈ

instance : RawKey ReversedKey := ⟨OrderDual.ofDual, OrderDual.toDual, fun _ => rfl⟩

def reversed (b : Byte) : ReversedKey := OrderDual.toDual [b]

def maxKeyLength : ℕ := 65535

/-- Increments the last byte below `0xFF` and drops the bytes after it. -/
def bumpLast (key : List Byte) : Option (List Byte) :=
  match key.reverse.dropWhile (· = 255) with
  | [] => none
  | b :: rest => some ((b + 1) :: rest).reverse

section RawKey

variable {K : Type*} [RawKey K]

open RawKey

/-- The key right after `k` in byte order, when one fits in a key. -/
def upperBoundExclusive (k : K) : Option K :=
  if (toBytes k).length < maxKeyLength then some (ofBytes (toBytes k ++ [0]))
  else (bumpLast (toBytes k)).map ofBytes

/-- The derived `Ord` of keys: byte order, not the comparator. -/
def bytesLt (a b : K) : Bool := decide (toBytes a < toBytes b)

def minBytes (a b : K) : K := if bytesLt b a then b else a

def maxBytes (a b : K) : K := if bytesLt a b then b else a

namespace RangeTombstone

/-- `impl Ord`: start, then newest first, then end, all in byte order. -/
def byteLe (a b : RangeTombstone K) : Bool :=
  bytesLt a.start b.start ||
    (!bytesLt b.start a.start &&
      (decide (b.seqno < a.seqno) ||
        (a.seqno == b.seqno && !bytesLt b.stop a.stop)))

/-- `RangeTombstone::sentinel`: the tombstone least by sequence number, then start. -/
def sentinel : List (RangeTombstone K) → Option (RangeTombstone K)
  | [] => none
  | rt :: rest =>
    some (rest.foldl (fun a b =>
      if b.seqno < a.seqno ∨ (b.seqno = a.seqno ∧ bytesLt b.start a.start = true)
      then b else a) rt)

end RangeTombstone

end RawKey

section Clip

variable {K : Type*} [LinearOrder K]

namespace RangeTombstone

/-- `intersect_opt_with`: the part of the tombstone in `[min, max)`, if any. -/
def intersectOpt (rt : RangeTombstone K) (min max : K) : Option (RangeTombstone K) :=
  let start := if min < rt.start then rt.start else min
  let stop := if rt.stop < max then rt.stop else max
  if start < stop then some ⟨start, stop, rt.seqno⟩ else none

/-- The part of the tombstone from `min` on, for a table that no key bounds from above. -/
def clipStart (rt : RangeTombstone K) (min : K) : Option (RangeTombstone K) :=
  let start := if min < rt.start then rt.start else min
  if start < rt.stop then some ⟨start, rt.stop, rt.seqno⟩ else none

variable {rt rt' : RangeTombstone K} {min max : K}

theorem intersectOpt_seqno (h : rt.intersectOpt min max = some rt') : rt'.seqno = rt.seqno := by
  obtain ⟨-, h⟩ := ite_none_right_eq_some.1 h
  exact congrArg (·.seqno) (Option.some.inj h).symm

theorem clipStart_seqno (h : rt.clipStart min = some rt') :
    rt'.seqno = rt.seqno := by
  obtain ⟨-, h⟩ := ite_none_right_eq_some.1 h
  exact congrArg (·.seqno) (Option.some.inj h).symm

variable {a b k : K}

theorem later_le_iff : (if a < b then b else a) ≤ k ↔ a ≤ k ∧ b ≤ k := by
  split <;> constructor
  · exact fun h => ⟨by order, h⟩
  · exact And.right
  · exact fun h => ⟨h, by order⟩
  · exact And.left

theorem lt_earlier_iff : k < (if a < b then a else b) ↔ k < a ∧ k < b := by
  split <;> constructor
  · exact fun h => ⟨h, by order⟩
  · exact And.left
  · exact fun h => ⟨by order, h⟩
  · exact And.right

variable {s R : ℕ}

theorem intersectOpt_suppress :
    (∃ rt' ∈ rt.intersectOpt min max, rt'.shouldSuppress k s R = true) ↔
      rt.shouldSuppress k s R = true ∧ min ≤ k ∧ k < max := by
  simp only [intersectOpt, mem_def, ite_none_right_eq_some, Option.some.injEq]
  constructor
  · rintro ⟨rt', ⟨-, rfl⟩, h⟩
    simp only [shouldSuppress_iff, later_le_iff, lt_earlier_iff] at h ⊢
    tauto
  · intro h
    refine ⟨_, ⟨lt_of_le_of_lt (b := k) ?_ ?_, rfl⟩, ?_⟩ <;>
      simp only [shouldSuppress_iff, later_le_iff, lt_earlier_iff] at h ⊢ <;> tauto

theorem clipStart_suppress :
    (∃ rt' ∈ rt.clipStart min, rt'.shouldSuppress k s R = true) ↔
      rt.shouldSuppress k s R = true ∧ min ≤ k := by
  simp only [clipStart, mem_def, ite_none_right_eq_some, Option.some.injEq]
  constructor
  · rintro ⟨rt', ⟨-, rfl⟩, h⟩
    simp only [shouldSuppress_iff, later_le_iff] at h ⊢
    tauto
  · intro h
    refine ⟨_, ⟨lt_of_le_of_lt (b := k) ?_ ?_, rfl⟩, ?_⟩ <;>
      simp only [shouldSuppress_iff, later_le_iff] at h ⊢ <;> tauto

end RangeTombstone

end Clip

end LsmTree
