import LsmTree.Entry

/-! Memtables. -/
namespace LsmTree

variable {K V : Type*} [LinearOrder K]

/-- A memtable: a skip list holds its entries by key, and newest first for one key. One
batch may write a key twice under one sequence number. -/
structure Memtable (K V : Type*) [LinearOrder K] where
  entries : List (InternalValue K V)
  rangeTombstones : List (RangeTombstone K)
  sorted : entries.Pairwise fun a b => InternalValue.le a b = true

/-- What a point read of `k` at `readSeqno` may find. -/
def InternalValue.matchesKey (k : K) (readSeqno : ℕ) (e : InternalValue K V) : Bool :=
  decide (e.userKey = k) && decide (e.seqno < readSeqno)

theorem InternalValue.matchesKey_iff {k : K} {readSeqno : ℕ} {e : InternalValue K V} :
    e.matchesKey k readSeqno = true ↔ e.userKey = k ∧ e.seqno < readSeqno := by
  simp [matchesKey]

namespace Memtable

def empty : Memtable K V := ⟨[], [], List.Pairwise.nil⟩

def isEmpty (m : Memtable K V) : Bool := m.entries.isEmpty && m.rangeTombstones.isEmpty

def seqnos (m : Memtable K V) : List ℕ :=
  m.entries.map (·.seqno) ++ m.rangeTombstones.map (·.seqno)

/-- An entry goes in front of those with its key and sequence number. -/
def insert (m : Memtable K V) (e : InternalValue K V) : Memtable K V where
  entries := m.entries.orderedInsert (fun a b => InternalValue.le a b = true) e
  rangeTombstones := m.rangeTombstones
  sorted :=
    have : Std.Total fun a b : InternalValue K V => a.le b = true :=
      ⟨fun a b => (Bool.eq_false_or_eq_true (a.le b)).imp_right InternalValue.le_of_not_le⟩
    have : IsTrans (InternalValue K V) fun a b => a.le b = true :=
      ⟨fun _ _ _ => InternalValue.le_trans⟩
    m.sorted.orderedInsert e m.entries

/-- An empty interval is rejected. -/
def insertRangeTombstone (m : Memtable K V) (rt : RangeTombstone K) : Memtable K V :=
  if rt.start < rt.stop then { m with rangeTombstones := m.rangeTombstones ++ [rt] } else m

def get (m : Memtable K V) (k : K) (seqno : ℕ) : Option (InternalValue K V) :=
  m.entries.find? (InternalValue.matchesKey k seqno)

def isKeySuppressedByRangeTombstone (m : Memtable K V) (k : K) (keySeqno readSeqno : ℕ) : Bool :=
  m.rangeTombstones.any fun rt => rt.shouldSuppress k keySeqno readSeqno

end Memtable

/-- `cmp_with_comparator`: start, then newest first, then end. -/
def RangeTombstone.le (a b : RangeTombstone K) : Bool :=
  decide (a.start < b.start ∨ (a.start = b.start ∧
    (b.seqno < a.seqno ∨ (a.seqno = b.seqno ∧ a.stop ≤ b.stop))))

namespace RangeTombstone

theorem le_iff {a b : RangeTombstone K} : RangeTombstone.le a b = true ↔
    a.start < b.start ∨ (a.start = b.start ∧
      (b.seqno < a.seqno ∨ (a.seqno = b.seqno ∧ a.stop ≤ b.stop))) := by
  simp [RangeTombstone.le]

theorem start_le_of_le {a b : RangeTombstone K} (h : RangeTombstone.le a b = true) :
    a.start ≤ b.start := by
  rcases le_iff.1 h with h | h
  · exact h.le
  · exact h.1.le

theorem le_trans {a b c : RangeTombstone K} (hab : RangeTombstone.le a b = true)
    (hbc : RangeTombstone.le b c = true) : RangeTombstone.le a c = true := by
  rw [le_iff] at *
  rcases hab with hab | ⟨hab, h⟩ <;> rcases hbc with hbc | ⟨hbc, h'⟩
  · exact Or.inl (hab.trans hbc)
  · exact Or.inl (hbc ▸ hab)
  · exact Or.inl (hab ▸ hbc)
  · refine Or.inr ⟨hab.trans hbc, ?_⟩
    rcases h with h | ⟨h, hs⟩ <;> rcases h' with h' | ⟨h', hs'⟩
    · exact Or.inl (h'.trans h)
    · exact Or.inl (h' ▸ h)
    · exact Or.inl (h ▸ h')
    · exact Or.inr ⟨h.trans h', hs.trans hs'⟩

theorem le_total (a b : RangeTombstone K) :
    RangeTombstone.le a b = true ∨ RangeTombstone.le b a = true := by
  rw [le_iff, le_iff]
  rcases lt_trichotomy a.start b.start with h | h | h
  · exact Or.inl (Or.inl h)
  · rcases lt_trichotomy a.seqno b.seqno with hs | hs | hs
    · exact Or.inr (Or.inr ⟨h.symm, Or.inl hs⟩)
    · rcases LinearOrder.le_total a.stop b.stop with he | he
      · exact Or.inl (Or.inr ⟨h, Or.inr ⟨hs, he⟩⟩)
      · exact Or.inr (Or.inr ⟨h.symm, Or.inr ⟨hs.symm, he⟩⟩)
    · exact Or.inl (Or.inr ⟨h, Or.inl hs⟩)
  · exact Or.inr (Or.inl h)

end RangeTombstone

end LsmTree
