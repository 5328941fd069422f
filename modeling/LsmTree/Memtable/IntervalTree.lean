import LsmTree.Memtable

/-! The balanced interval tree that holds the range tombstones of a memtable. -/
namespace LsmTree

open List

variable {K : Type*}

structure Augmentation (K : Type*) where
  maxEnd : K
  maxSeqno : ℕ
  minSeqno : ℕ
  deriving DecidableEq, Repr

inductive IntervalTree (K : Type*) where
  | nil
  | node (tombstone : RangeTombstone K) (height : ℤ) (left right : IntervalTree K)
    (subtree : Augmentation K)
  deriving DecidableEq, Repr

namespace IntervalTree

def height : IntervalTree K → ℤ
  | nil => 0
  | node _ h .. => h

@[simp] theorem height_nil : (nil : IntervalTree K).height = 0 := rfl

@[simp] theorem height_node (rt : RangeTombstone K) (h : ℤ) (left right : IntervalTree K)
    (subtree : Augmentation K) : (node rt h left right subtree).height = h := rfl

def balanceFactor : IntervalTree K → ℤ
  | nil => 0
  | node _ _ left right _ => left.height - right.height

variable [LinearOrder K]

def absorb (a : Augmentation K) : IntervalTree K → Augmentation K
  | nil => a
  | node _ _ _ _ b =>
    ⟨max a.maxEnd b.maxEnd, max a.maxSeqno b.maxSeqno, min a.minSeqno b.minSeqno⟩

/-- `update_augmentation`: the node of a tombstone over two subtrees. -/
def updateAugmentation (rt : RangeTombstone K) (left right : IntervalTree K) : IntervalTree K :=
  node rt (max (left.height + 1) (right.height + 1)) left right
    (absorb (absorb ⟨rt.stop, rt.seqno, rt.seqno⟩ left) right)

/-- `none` where the `expect` of a rotation fails. -/
def rotateRight (rt : RangeTombstone K) : IntervalTree K → IntervalTree K → Option (IntervalTree K)
  | node root _ a b _, right => some (updateAugmentation root a (updateAugmentation rt b right))
  | nil, _ => none

def rotateLeft (rt : RangeTombstone K) : IntervalTree K → IntervalTree K → Option (IntervalTree K)
  | left, node root _ a b _ => some (updateAugmentation root (updateAugmentation rt left a) b)
  | _, nil => none

def balance (rt : RangeTombstone K) (left right : IntervalTree K) : Option (IntervalTree K) :=
  if 1 < left.height - right.height then
    match left with
    | node root _ a b _ =>
      if left.balanceFactor < 0 then
        (rotateLeft root a b).bind fun left => rotateRight rt left right
      else rotateRight rt left right
    | nil => none
  else if left.height - right.height < -1 then
    match right with
    | node root _ a b _ =>
      if 0 < right.balanceFactor then
        (rotateRight root a b).bind fun right => rotateLeft rt left right
      else rotateLeft rt left right
    | nil => none
  else some (updateAugmentation rt left right)

/-- `cmp_with_comparator` -/
def compareWith (a b : RangeTombstone K) : Ordering :=
  (compare a.start b.start).then ((compare b.seqno a.seqno).then (compare a.stop b.stop))

def insertNode (rt : RangeTombstone K) : IntervalTree K → Option (IntervalTree K)
  | nil => some (updateAugmentation rt nil nil)
  | node root _ left right _ =>
    match compareWith rt root with
    | .lt => (insertNode rt left).bind fun left => balance root left right
    | .gt => (insertNode rt right).bind fun right => balance root left right
    | .eq => some (updateAugmentation rt left right)

/-- `any_overlapping_suppresses` -/
def querySuppression (key : K) (keySeqno readSeqno : ℕ) : IntervalTree K → Bool
  | nil => false
  | node rt _ left right subtree =>
    if readSeqno ≤ subtree.minSeqno then false
    else if subtree.maxEnd ≤ key then false
    else if left.querySuppression key keySeqno readSeqno then true
    else if rt.start ≤ key then
      rt.shouldSuppress key keySeqno readSeqno || right.querySuppression key keySeqno readSeqno
    else false

def iterSorted : IntervalTree K → List (RangeTombstone K)
  | nil => []
  | node rt _ left right _ => left.iterSorted ++ rt :: right.iterSorted

/-- The tree after tombstones were inserted one by one. -/
def insertAll (rts : List (RangeTombstone K)) : Option (IntervalTree K) :=
  rts.foldlM (fun t rt => insertNode rt t) nil

section Augmented

structure Summarises (a : Augmentation K) (s : Set (RangeTombstone K)) : Prop where
  maxEnd : IsGreatest ((·.stop) '' s) a.maxEnd
  maxSeqno : IsGreatest ((·.seqno) '' s) a.maxSeqno
  minSeqno : IsLeast ((·.seqno) '' s) a.minSeqno

def members (t : IntervalTree K) : Set (RangeTombstone K) := {rt | rt ∈ t.iterSorted}

/-- Every node is balanced, and knows its height and the bounds of its subtree. -/
def Good : IntervalTree K → Prop
  | nil => True
  | node rt h left right subtree =>
    h = max (left.height + 1) (right.height + 1) ∧
      (left.height - right.height ≤ 1 ∧ -1 ≤ left.height - right.height) ∧
      Summarises subtree (node rt h left right subtree).members ∧ left.Good ∧ right.Good

variable {rt : RangeTombstone K} {t l r : IntervalTree K} {s : Set (RangeTombstone K)}

theorem Good.height_nonneg (h : t.Good) : 0 ≤ t.height := by
  induction t with
  | nil => exact le_refl _
  | node _ _ _ _ _ ihl _ =>
    have := ihl h.2.2.2.1
    rw [height, h.1]
    omega

theorem Summarises.absorb {a : Augmentation K} (ha : Summarises a s) (h : t.Good) :
    Summarises (absorb a t) (s ∪ t.members) := by
  cases t with
  | nil =>
    have : (nil : IntervalTree K).members = ∅ := Set.eq_empty_of_forall_notMem nofun
    rwa [this, Set.union_empty]
  | node =>
    obtain ⟨-, -, hb, -⟩ := h
    constructor
    · rw [Set.image_union]
      exact ha.maxEnd.union hb.maxEnd
    · rw [Set.image_union]
      exact ha.maxSeqno.union hb.maxSeqno
    · rw [Set.image_union]
      exact ha.minSeqno.union hb.minSeqno

theorem updateAugmentation_good (rt : RangeTombstone K) (hl : l.Good) (hr : r.Good)
    (h : l.height - r.height ≤ 1 ∧ -1 ≤ l.height - r.height) :
    (updateAugmentation rt l r).Good := by
  have hself : Summarises ⟨rt.stop, rt.seqno, rt.seqno⟩ {rt} := by
    constructor <;> simp
  have hmembers : (updateAugmentation rt l r).members = {rt} ∪ l.members ∪ r.members := by
    ext x
    simp only [members, updateAugmentation, iterSorted, mem_append, mem_cons,
      Set.mem_ofPred_eq, Set.mem_union, Set.mem_singleton_iff]
    grind
  refine ⟨rfl, h, ?_, hl, hr⟩
  change Summarises _ (updateAugmentation rt l r).members
  rw [hmembers]
  exact (hself.absorb hl).absorb hr

@[simp] theorem height_updateAugmentation :
    (updateAugmentation rt l r).height = max (l.height + 1) (r.height + 1) := rfl

@[simp] theorem iterSorted_updateAugmentation :
    (updateAugmentation rt l r).iterSorted = l.iterSorted ++ rt :: r.iterSorted := rfl

theorem balance_spec (rt : RangeTombstone K) (hl : l.Good) (hr : r.Good)
    (h : l.height - r.height ≤ 2 ∧ -2 ≤ l.height - r.height) :
    ∃ t, balance rt l r = some t ∧ t.Good ∧ t.iterSorted = l.iterSorted ++ rt :: r.iterSorted ∧
      (t.height = max l.height r.height + 1 ∨ t.height = max l.height r.height ∧
        (1 < l.height - r.height ∨ l.height - r.height < -1)) := by
  have hl0 := hl.height_nonneg
  have hr0 := hr.height_nonneg
  unfold balance
  by_cases hleft : 1 < l.height - r.height
  · rw [if_pos hleft]
    rcases l with _ | ⟨root, _, a, b, _⟩
    · rw [height_nil] at hleft
      omega
    obtain ⟨hh, hab, -, ha, hb⟩ := hl
    simp only [height_node] at h hleft ⊢
    by_cases hbf : a.height - b.height < 0
    · rw [balanceFactor, if_pos hbf]
      rcases b with _ | ⟨c, _, b₁, b₂, _⟩
      · have := ha.height_nonneg
        rw [height_nil] at hbf
        omega
      obtain ⟨hh', hbb, -, hb₁, hb₂⟩ := hb
      rw [height_node] at hbf hab hh
      refine ⟨_, rfl, updateAugmentation_good c (updateAugmentation_good root ha hb₁ ?_)
        (updateAugmentation_good rt hb₂ hr ?_) ?_, by simp [iterSorted], ?_⟩
      all_goals
        try simp only [height_updateAugmentation]
        omega
    · rw [balanceFactor, if_neg hbf]
      refine ⟨_, rfl, updateAugmentation_good root ha (updateAugmentation_good rt hb hr ?_) ?_,
        by simp [iterSorted], ?_⟩
      all_goals
        try simp only [height_updateAugmentation]
        omega
  by_cases hright : l.height - r.height < -1
  · rw [if_neg hleft, if_pos hright]
    rcases r with _ | ⟨root, _, a, b, _⟩
    · rw [height_nil] at hright
      omega
    obtain ⟨hh, hab, -, ha, hb⟩ := hr
    simp only [height_node] at h hright ⊢
    by_cases hbf : 0 < a.height - b.height
    · rw [balanceFactor, if_pos hbf]
      rcases a with _ | ⟨c, _, a₁, a₂, _⟩
      · have := hb.height_nonneg
        rw [height_nil] at hbf
        omega
      obtain ⟨hh', haa, -, ha₁, ha₂⟩ := ha
      rw [height_node] at hbf hab hh
      refine ⟨_, rfl, updateAugmentation_good c (updateAugmentation_good rt hl ha₁ ?_)
        (updateAugmentation_good root ha₂ hb ?_) ?_, by simp [iterSorted], ?_⟩
      all_goals
        try simp only [height_updateAugmentation]
        omega
    · rw [balanceFactor, if_neg hbf]
      refine ⟨_, rfl, updateAugmentation_good root (updateAugmentation_good rt hl ha ?_) hb ?_,
        by simp [iterSorted], ?_⟩
      all_goals
        try simp only [height_updateAugmentation]
        omega
  · rw [if_neg hleft, if_neg hright]
    refine ⟨_, rfl, updateAugmentation_good rt hl hr (by omega), rfl, ?_⟩
    rw [height_updateAugmentation]
    omega

end Augmented

section Sorted

instance : Std.TransCmp (compareWith : RangeTombstone K → _ → Ordering) := by
  have : Std.TransCmp fun a b : RangeTombstone K => compareOn (·.seqno) b a :=
    Std.TransCmp.opposite
  exact inferInstanceAs (Std.TransCmp (compareLex (compareOn RangeTombstone.start)
    (compareLex (fun a b => compareOn RangeTombstone.seqno b a) (compareOn RangeTombstone.stop))))

theorem eq_of_compareWith {a b : RangeTombstone K} (h : compareWith a b = .eq) : a = b := by
  obtain ⟨hstart, h⟩ := Ordering.then_eq_eq.1 h
  obtain ⟨hseqno, hstop⟩ := Ordering.then_eq_eq.1 h
  cases a
  cases b
  rw [RangeTombstone.mk.injEq]
  exact ⟨compare_eq_iff_eq.1 hstart, compare_eq_iff_eq.1 hstop, (compare_eq_iff_eq.1 hseqno).symm⟩

theorem start_le_of_compareWith {a b : RangeTombstone K} (h : compareWith a b = .lt) :
    a.start ≤ b.start := by
  by_contra hlt
  rw [compareWith, compare_gt_iff_gt.2 (not_le.1 hlt)] at h
  cases h

def Sorted (l : List (RangeTombstone K)) : Prop := l.Pairwise fun a b => compareWith a b = .lt

variable {rt root : RangeTombstone K} {t : IntervalTree K} {l l' r r' : List (RangeTombstone K)}

theorem sorted_node : Sorted (l ++ root :: r) ↔ Sorted l ∧ Sorted r ∧
    (∀ a ∈ l, compareWith a root = .lt) ∧ ∀ b ∈ r, compareWith root b = .lt := by
  rw [Sorted, pairwise_append, pairwise_cons]
  constructor
  · rintro ⟨hl, ⟨hroot, hr⟩, hlr⟩
    exact ⟨hl, hr, fun a ha => hlr a ha root mem_cons_self, hroot⟩
  · rintro ⟨hl, hr, hlroot, hroot⟩
    refine ⟨hl, ⟨hroot, hr⟩, fun a ha b hb => ?_⟩
    rcases mem_cons.1 hb with rfl | hb
    · exact hlroot a ha
    · exact Std.TransCmp.lt_trans (hlroot a ha) (hroot b hb)

theorem insertNode_spec (rt : RangeTombstone K) (h : t.Good) (hs : Sorted t.iterSorted) :
    ∃ t', insertNode rt t = some t' ∧ t'.Good ∧ Sorted t'.iterSorted ∧
      (∀ x, x ∈ t'.iterSorted ↔ x = rt ∨ x ∈ t.iterSorted) ∧
      t.height ≤ t'.height ∧ t'.height ≤ t.height + 1 := by
  induction t with
  | nil =>
    refine ⟨_, rfl, updateAugmentation_good rt h h (by simp), pairwise_singleton .., ?_,
      by simp⟩
    intro x
    simp [iterSorted]
  | node root _ left right _ ihl ihr =>
    obtain ⟨hh, hbf, -, hl, hr⟩ := h
    obtain ⟨hsl, hsr, hlroot, hrootr⟩ := sorted_node.1 hs
    simp only [insertNode, height_node, iterSorted]
    cases hc : compareWith rt root with
    | lt =>
      obtain ⟨left', heq, hgood, hsorted, hmem, hheight⟩ := ihl hl hsl
      obtain ⟨t, hbal, ht, hiter, hth⟩ := balance_spec root hgood hr (by omega)
      refine ⟨t, by rw [heq]; exact hbal, ht, ?_, fun x => ?_, by omega⟩
      · rw [hiter, sorted_node]
        refine ⟨hsorted, hsr, fun a ha => ?_, hrootr⟩
        rcases (hmem a).1 ha with rfl | ha
        · exact hc
        · exact hlroot a ha
      · rw [hiter, mem_append, hmem, mem_append, or_assoc]
    | gt =>
      obtain ⟨right', heq, hgood, hsorted, hmem, hheight⟩ := ihr hr hsr
      obtain ⟨t, hbal, ht, hiter, hth⟩ := balance_spec root hl hgood (by omega)
      refine ⟨t, by rw [heq]; exact hbal, ht, ?_, fun x => ?_, by omega⟩
      · rw [hiter, sorted_node]
        refine ⟨hsl, hsorted, hlroot, fun b hb => ?_⟩
        rcases (hmem b).1 hb with rfl | hb
        · exact Std.OrientedCmp.gt_iff_lt.1 hc
        · exact hrootr b hb
      · rw [hiter, mem_append, mem_cons, hmem, mem_append, mem_cons]
        grind
    | eq =>
      obtain rfl := eq_of_compareWith hc
      refine ⟨_, rfl, updateAugmentation_good rt hl hr hbf, hs, fun x => ?_, ?_⟩
      · rw [iterSorted_updateAugmentation, mem_append, mem_cons]
        grind
      · rw [height_updateAugmentation, hh]
        omega

theorem querySuppression_eq (key : K) (keySeqno readSeqno : ℕ) (hgood : t.Good)
    (hs : Sorted t.iterSorted) : t.querySuppression key keySeqno readSeqno =
      t.iterSorted.any (·.shouldSuppress key keySeqno readSeqno) := by
  induction t with
  | nil => rfl
  | node rt h left right subtree ihl ihr =>
    obtain ⟨-, -, hsub, hl, hr⟩ := hgood
    obtain ⟨hsl, hsr, -, hrootr⟩ := sorted_node.1 hs
    have hnone : (∀ x ∈ (node rt h left right subtree).iterSorted,
        ¬ x.shouldSuppress key keySeqno readSeqno) →
        (node rt h left right subtree).iterSorted.any (·.shouldSuppress key keySeqno readSeqno) =
          false := fun h => any_eq_false.2 h
    rw [querySuppression]
    split_ifs with hmin hmax hleft hstart
    · refine (hnone fun x hx hsup => ?_).symm
      have hle : subtree.minSeqno ≤ x.seqno := hsub.minSeqno.2 ⟨x, hx, rfl⟩
      exact absurd (RangeTombstone.shouldSuppress_iff.1 hsup).1 (not_lt.2 (hmin.trans hle))
    · refine (hnone fun x hx hsup => ?_).symm
      have hstop : x.stop ≤ key := (hsub.maxEnd.2 ⟨x, hx, rfl⟩).trans hmax
      exact absurd (RangeTombstone.shouldSuppress_iff.1 hsup).2.1.2 (not_lt.2 hstop)
    · rw [ihl hl hsl] at hleft
      rw [iterSorted, any_append, hleft, Bool.true_or]
    · rw [ihl hl hsl, Bool.not_eq_true] at hleft
      rw [iterSorted, any_append, any_cons, hleft, ihr hr hsr, Bool.false_or]
    · rw [ihl hl hsl, Bool.not_eq_true] at hleft
      rw [iterSorted, any_append, hleft, Bool.false_or]
      refine (any_eq_false.2 fun x hx hsup => ?_).symm
      have hle : rt.start ≤ x.start := by
        rcases mem_cons.1 hx with rfl | hx
        · exact le_refl _
        · exact start_le_of_compareWith (hrootr x hx)
      exact hstart (hle.trans (RangeTombstone.shouldSuppress_iff.1 hsup).2.1.1)

end Sorted

/-- Whatever tombstones are inserted, and in whatever order: no rotation fails, every node is
balanced and knows the bounds of its subtree, the tombstones come out in strictly ascending
order, each once, and a query answers whether one of them covers the key and is newer. -/
theorem insertAll_spec (rts : List (RangeTombstone K)) : ∃ t, insertAll rts = some t ∧ t.Good ∧
    Sorted t.iterSorted ∧ (∀ rt, rt ∈ t.iterSorted ↔ rt ∈ rts) ∧
    ∀ key keySeqno readSeqno, t.querySuppression key keySeqno readSeqno = true ↔
      ∃ rt ∈ rts, (rt.start ≤ key ∧ key < rt.stop) ∧ keySeqno < rt.seqno ∧ rt.seqno < readSeqno := by
  have hrun : ∀ (rts : List (RangeTombstone K)) (t : IntervalTree K), t.Good →
      Sorted t.iterSorted → ∃ t', rts.foldlM (fun t rt => insertNode rt t) t = some t' ∧ t'.Good ∧
        Sorted t'.iterSorted ∧ ∀ x, x ∈ t'.iterSorted ↔ x ∈ rts ∨ x ∈ t.iterSorted := by
    intro rts
    induction rts with
    | nil => exact fun t h hs => ⟨t, rfl, h, hs, by simp⟩
    | cons rt rts ih =>
      intro t h hs
      obtain ⟨t', heq, hgood, hsorted, hmem, -⟩ := insertNode_spec rt h hs
      obtain ⟨t'', heq', hgood', hsorted', hmem'⟩ := ih t' hgood hsorted
      refine ⟨t'', by rw [foldlM_cons, heq]; exact heq', hgood', hsorted', fun x => ?_⟩
      rw [hmem', hmem, mem_cons]
      grind
  obtain ⟨t, heq, hgood, hsorted, hmem⟩ := hrun rts nil trivial List.Pairwise.nil
  have hmem' : ∀ rt, rt ∈ t.iterSorted ↔ rt ∈ rts := fun rt => by
    rw [hmem, iterSorted, mem_nil_iff, or_false]
  refine ⟨t, heq, hgood, hsorted, hmem', fun key keySeqno readSeqno => ?_⟩
  rw [querySuppression_eq key keySeqno readSeqno hgood hsorted, any_eq_true]
  simp only [hmem', RangeTombstone.shouldSuppress_iff]
  exact exists_congr fun rt => and_congr_right fun _ => ⟨fun h => ⟨h.2.1, h.2.2, h.1⟩,
    fun h => ⟨h.2.2, h.1, h.2.1⟩⟩

end IntervalTree

end LsmTree
