import Mathlib

/-! Entries, range tombstones and merge operators. A key type carries the tree's comparator as its
linear order. -/
namespace LsmTree

inductive ValueType where
  | value
  | tombstone
  | weakTombstone
  | mergeOperand
  | indirection
  deriving DecidableEq, Repr

def ValueType.isTombstone : ValueType → Bool
  | .tombstone | .weakTombstone => true
  | _ => false

structure InternalValue (K V : Type*) where
  userKey : K
  seqno : ℕ
  valueType : ValueType
  value : V
  deriving DecidableEq, Repr

variable {K V : Type*}

def InternalValue.isTombstone (e : InternalValue K V) : Bool := e.valueType.isTombstone

def InternalValue.isMergeOperand (e : InternalValue K V) : Bool :=
  e.valueType == .mergeOperand

theorem InternalValue.not_operand_of_isTombstone {e : InternalValue K V}
    (h : e.isTombstone = true) : e.isMergeOperand = false := by
  rcases e with ⟨_, _, type, _⟩
  cases type <;> cases h <;> rfl

/-- `apply_global_seqno`: a bulk-ingested table adds its own sequence number to that of an entry. -/
def InternalValue.withGlobalSeqno (global : ℕ) (e : InternalValue K V) : InternalValue K V :=
  { e with seqno := e.seqno + global }

/-- A range delete: it covers the half-open key interval from `start` to `stop`. -/
structure RangeTombstone (K : Type*) where
  start : K
  stop : K
  seqno : ℕ
  deriving DecidableEq, Repr

/-- `merge key base operands`, the operands in chronological order. -/
structure MergeOperator (K V : Type*) where
  merge : K → Option V → List V → V

section Order

variable [LinearOrder K]

/-- User key ascending, sequence number descending. -/
def InternalValue.Before (a b : InternalValue K V) : Prop :=
  a.userKey < b.userKey ∨ (a.userKey = b.userKey ∧ b.seqno < a.seqno)

instance (a b : InternalValue K V) : Decidable (a.Before b) :=
  inferInstanceAs (Decidable (_ < _ ∨ (_ = _ ∧ _ < _)))

/-- The order of the merge: user key ascending, sequence number descending. -/
def InternalValue.le (a b : InternalValue K V) : Bool :=
  decide (a.userKey < b.userKey ∨ (a.userKey = b.userKey ∧ b.seqno ≤ a.seqno))

theorem InternalValue.le_iff {a b : InternalValue K V} : InternalValue.le a b = true ↔
    a.userKey < b.userKey ∨ (a.userKey = b.userKey ∧ b.seqno ≤ a.seqno) := by
  simp [InternalValue.le]

theorem InternalValue.le_key {a b : InternalValue K V} :
    (a.le b = true → a.userKey ≤ b.userKey) ∧ (a.le b = false → b.userKey ≤ a.userKey) := by
  simp only [InternalValue.le, decide_eq_true_eq, decide_eq_false_iff_not, not_or]
  constructor
  · rintro (h | h)
    · exact h.le
    · exact h.1.le
  · exact fun h => not_lt.1 h.1

namespace InternalValue

theorem le_trans {a b c : InternalValue K V} (hab : a.le b = true) (hbc : b.le c = true) :
    a.le c = true := by
  rw [le_iff] at *
  rcases hab with hab | ⟨hab, h⟩ <;> rcases hbc with hbc | ⟨hbc, h'⟩
  · exact Or.inl (hab.trans hbc)
  · exact Or.inl (hbc ▸ hab)
  · exact Or.inl (hab ▸ hbc)
  · exact Or.inr ⟨hab.trans hbc, Nat.le_trans h' h⟩

theorem le_of_not_le {a b : InternalValue K V} (h : a.le b = false) : b.le a = true := by
  rw [Bool.eq_false_iff, Ne, le_iff, not_or, not_lt] at h
  rw [le_iff]
  rcases h.1.lt_or_eq with hlt | heq
  · exact Or.inl hlt
  · exact Or.inr ⟨heq, Nat.le_of_not_le fun hle => h.2 ⟨heq.symm, hle⟩⟩

end InternalValue

namespace RangeTombstone

def contains (rt : RangeTombstone K) (k : K) : Bool := decide (rt.start ≤ k ∧ k < rt.stop)

def visibleAt (rt : RangeTombstone K) (readSeqno : ℕ) : Bool := decide (rt.seqno < readSeqno)

def shouldSuppress (rt : RangeTombstone K) (k : K) (kvSeqno readSeqno : ℕ) : Bool :=
  rt.visibleAt readSeqno && rt.contains k && decide (kvSeqno < rt.seqno)

theorem contains_iff {rt : RangeTombstone K} {k : K} :
    rt.contains k = true ↔ rt.start ≤ k ∧ k < rt.stop := by simp [contains]

theorem shouldSuppress_iff {rt : RangeTombstone K} {k : K} {s R : ℕ} :
    rt.shouldSuppress k s R = true ↔
      rt.seqno < R ∧ (rt.start ≤ k ∧ k < rt.stop) ∧ s < rt.seqno := by
  simp [shouldSuppress, visibleAt, contains, and_assoc]

end RangeTombstone

end Order

end LsmTree
