import LsmTree.Merge.MergerOrder
import LsmTree.Theory.DoubleEnded

/-! `Merger`: both ends take from one sorted vector of buffered items. -/
namespace LsmTree

open DoubleEnded List

variable {K V : Type*}

/-- The heap is its sorted vector. The sources do not fail. -/
structure Merger (K V : Type*) where
  sources : List (List (InternalValue K V))
  heap : List (MergerEntry K V)
  initialized : Direction → Bool

namespace Merger

def new (sources : List (List (InternalValue K V))) : Merger K V := ⟨sources, [], fun _ => false⟩

def source (m : Merger K V) (i : ℕ) : List (InternalValue K V) := m.sources[i]?.getD []

/-- `pop_min`, `pop_max` -/
def pop (d : Direction) (heap : List (MergerEntry K V)) : List (MergerEntry K V) :=
  d.view (d.view heap).tail

def tagged (m : Merger K V) (i : ℕ) : List (MergerEntry K V) := (m.source i).map (MergerEntry.mk i)

/-- What is buffered and what the sources have left. -/
def items (m : Merger K V) : List (MergerEntry K V) :=
  m.heap ++ (m.sources.mapIdx fun i s => s.map (MergerEntry.mk i)).flatten

section Items

variable {m : Merger K V} {i : ℕ} {heap : List (MergerEntry K V)} {rest : List (InternalValue K V)}

theorem source_eq_nil (hi : ¬ i < m.sources.length) : m.source i = [] := by
  rw [source, getElem?_eq_none (not_lt.1 hi)]
  rfl

theorem mem_items {e : MergerEntry K V} : e ∈ m.items ↔ e ∈ m.heap ∨ ∃ i, e ∈ m.tagged i := by
  rw [items, mem_append, mem_flatten]
  refine or_congr_right ⟨?_, ?_⟩
  · rintro ⟨l, hl, he⟩
    obtain ⟨i, hi⟩ := mem_iff_getElem?.1 hl
    rw [getElem?_mapIdx] at hi
    obtain ⟨s, hs, rfl⟩ := Option.map_eq_some_iff.1 hi
    exact ⟨i, by rwa [tagged, source, hs]⟩
  · rintro ⟨i, he⟩
    cases hs : m.sources[i]? with
    | none => simp [tagged, source, hs] at he
    | some s =>
      rw [tagged, source, hs] at he
      exact ⟨_, mem_iff_getElem?.2 ⟨i, by rw [getElem?_mapIdx, hs]; rfl⟩, he⟩

theorem tagged_set (hi : i < m.sources.length) (j : ℕ) :
    tagged { m with sources := m.sources.set i rest, heap := heap } j =
      if i = j then rest.map (MergerEntry.mk i) else m.tagged j := by
  rw [tagged, source, getElem?_set]
  by_cases hij : i = j
  · subst hij
    simp [hi]
  · simp [hij, tagged, source]

end Items

variable [LinearOrder K]

/-- `push`: in front of the first entry that is greater. -/
def push (e : MergerEntry K V) (heap : List (MergerEntry K V)) : List (MergerEntry K V) :=
  heap.orderedInsert (fun a b => minCmp b a = .gt) e

/-- `replace_min`, `replace_max`: the new entry slides away from the end. -/
def replace (d : Direction) (e : MergerEntry K V) (heap : List (MergerEntry K V)) :
    List (MergerEntry K V) :=
  d.view ((d.view heap).tail.orderedInsert (fun a b => d.cmp a b ≠ .gt) e)

def fill (d : Direction) (m : Merger K V) (i : ℕ) : Merger K V :=
  match d.pull (m.source i) with
  | some (v, rest) => { m with sources := m.sources.set i rest, heap := push ⟨i, v⟩ m.heap }
  | none => m

/-- `initialize_lo`, `initialize_hi` -/
def initializeEnd (d : Direction) (m : Merger K V) : Merger K V :=
  { (List.range m.sources.length).foldl (fill d) m with
    initialized := Function.update m.initialized d true }

def advance (d : Direction) (m : Merger K V) : Option (InternalValue K V) × Merger K V :=
  let m := if m.initialized d then m else m.initializeEnd d
  match (d.view m.heap).head? with
  | none => (none, m)
  | some top =>
    match d.pull (m.source top.source) with
    | some (v, rest) => (some top.value, { m with
        sources := m.sources.set top.source rest
        heap := replace d ⟨top.source, v⟩ m.heap })
    | none => (some top.value, { m with heap := pop d m.heap })

instance : Iter (Merger K V) (InternalValue K V) where
  next := advance .forward
  nextBack := advance .backward
  bound m := m.items.length

/-- The items left are those of `merged`. For the directions and sources of `buffered`, the heap has
an entry on the way to each item of the source. -/
structure Merges (m : Merger K V) (buffered : Direction → ℕ → Prop)
    (merged : List (MergerEntry K V)) : Prop where
  sorted : merged.Pairwise (minCmp · · = .lt)
  items : m.items.Perm merged
  heap : m.heap.Pairwise (minCmp · · ≠ .gt)
  sources : ∀ i, (m.tagged i).Pairwise (minCmp · · = .lt)
  buffered : ∀ d i, buffered d i → ∀ x ∈ m.tagged i, ∃ e ∈ m.heap, e.source = i ∧ d.cmp e x = .lt

section Lists

variable {α : Type*} {d : Direction}

omit [LinearOrder K] in
theorem view_perm (l : List α) : (d.view l).Perm l := by
  cases d with
  | forward => exact List.Perm.refl l
  | backward => exact reverse_perm l

omit [LinearOrder K] in
theorem view_view (l : List α) : d.view (d.view l) = l := by cases d <;> simp [Direction.view]

theorem pairwise_view (P : Ordering → Prop) {l : List (MergerEntry K V)} :
    (d.view l).Pairwise (fun a b => P (d.cmp a b)) ↔ l.Pairwise (fun a b => P (minCmp a b)) := by
  cases d with
  | forward => exact Iff.rfl
  | backward => exact pairwise_reverse

omit [LinearOrder K] in
theorem pairwise_orderedInsert {cmp : α → α → Ordering} [Std.TransCmp cmp] {r : α → α → Prop}
    [DecidableRel r] (hr : ∀ a b, r a b → cmp a b ≠ .gt) (hn : ∀ a b, ¬ r a b → cmp b a ≠ .gt)
    (e : α) {l : List α} (h : l.Pairwise (cmp · · ≠ .gt)) :
    (l.orderedInsert r e).Pairwise (cmp · · ≠ .gt) := by
  induction l with
  | nil => exact pairwise_singleton _ _
  | cons a l ih =>
    obtain ⟨ha, hl⟩ := pairwise_cons.1 h
    rw [orderedInsert_cons]
    by_cases hea : r e a
    · rw [if_pos hea]
      refine pairwise_cons.2 ⟨fun b hb => ?_, h⟩
      rcases mem_cons.1 hb with rfl | hb
      · exact hr _ _ hea
      · exact Std.TransCmp.le_trans (hr _ _ hea) (ha b hb)
    · rw [if_neg hea]
      refine pairwise_cons.2 ⟨fun b hb => ?_, ih hl⟩
      rcases (mem_orderedInsert _).1 hb with rfl | hb
      · exact hn _ _ hea
      · exact ha b hb

omit [LinearOrder K] in
theorem flatten_set_perm {L : List (List α)} {i : ℕ} {s s' : List α} {x : α}
    (hi : L[i]? = some s) (h : s.Perm (x :: s')) :
    L.flatten.Perm (x :: (L.set i s').flatten) := by
  induction L generalizing i with
  | nil => cases hi
  | cons a L ih =>
    cases i with
    | zero =>
      cases hi
      exact h.append_right _
    | succ i => exact ((ih hi).append_left a).trans perm_middle

end Lists

namespace Merges

variable {m : Merger K V} {d : Direction} {buffered : Direction → ℕ → Prop}
  {merged heap : List (MergerEntry K V)} {i : ℕ} {v : InternalValue K V}
  {rest : List (InternalValue K V)}

theorem pulled (h : m.Merges buffered merged) (hp : d.pull (m.source i) = some (v, rest))
    (hperm : heap.Perm (⟨i, v⟩ :: m.heap)) (hheap : heap.Pairwise (minCmp · · ≠ .gt)) :
    Merges { m with sources := m.sources.set i rest, heap := heap }
      (fun d' j => buffered d' j ∨ d' = d ∧ j = i) merged := by
  have hi : i < m.sources.length := by
    by_contra hi
    rw [source_eq_nil hi, Direction.pull_eq_none.2 rfl] at hp
    cases hp
  have hview : d.view (m.tagged i) = ⟨i, v⟩ :: d.view (rest.map (MergerEntry.mk i)) := by
    rw [tagged, Direction.view_map, Direction.pull_eq_some hp, Direction.view_map]
    rfl
  have hsorted := (pairwise_view (d := d) (· = .lt)).2 (h.sources i)
  rw [hview, pairwise_cons] at hsorted
  have hrest := (pairwise_view (· = .lt)).1 hsorted.2
  have hmove : (m.tagged i).Perm (⟨i, v⟩ :: rest.map (MergerEntry.mk i)) :=
    (view_perm (d := d) _).symm.trans (hview ▸ (view_perm _).cons _)
  refine ⟨h.sorted, ?_, hheap, fun j => ?_, fun d' j hb x hx => ?_⟩
  · refine List.Perm.trans ?_ h.items
    rw [Merger.items, Merger.items, mapIdx_set]
    refine (hperm.append_right _).trans (perm_middle.symm.trans (List.Perm.append_left _ ?_))
    refine (flatten_set_perm ?_ hmove).symm
    rw [getElem?_mapIdx, getElem?_eq_getElem hi, tagged, source,
      getElem?_eq_getElem hi]
    rfl
  · rw [tagged_set hi]
    split
    · exact hrest
    · exact h.sources j
  · rw [tagged_set hi] at hx
    have hkeep : ∀ e ∈ m.heap, e ∈ heap := fun e he =>
      hperm.mem_iff.2 (mem_cons_of_mem _ he)
    split at hx
    · next hij =>
      subst hij
      rcases hb with hb | ⟨rfl, -⟩
      · obtain ⟨e, he, hlt⟩ := h.buffered d' i hb x (hmove.mem_iff.2 (mem_cons_of_mem _ hx))
        exact ⟨e, hkeep e he, hlt⟩
      · exact ⟨⟨i, v⟩, hperm.mem_iff.2 mem_cons_self, rfl,
          hsorted.1 x ((view_perm _).mem_iff.2 hx)⟩
    · next hij =>
      rcases hb with hb | ⟨-, rfl⟩
      · obtain ⟨e, he, hlt⟩ := h.buffered d' j hb x hx
        exact ⟨e, hkeep e he, hlt⟩
      · exact absurd rfl hij

theorem drained (h : m.Merges buffered merged) (hp : d.pull (m.source i) = none) :
    m.Merges (fun d' j => buffered d' j ∨ d' = d ∧ j = i) merged := by
  refine { h with buffered := fun d' j hb x hx => ?_ }
  rcases hb with hb | ⟨-, rfl⟩
  · exact h.buffered d' j hb x hx
  · rw [tagged, Direction.pull_eq_none.1 hp] at hx
    cases hx

theorem fill (h : m.Merges buffered merged) (d : Direction) (i : ℕ) :
    (m.fill d i).Merges (fun d' j => buffered d' j ∨ d' = d ∧ j = i) merged := by
  rw [Merger.fill]
  cases hp : d.pull (m.source i) with
  | none => exact h.drained hp
  | some x =>
    refine h.pulled hp (perm_orderedInsert _ _ _) (pairwise_orderedInsert ?_ ?_ _ h.heap)
    · intro a b hab
      rw [Std.OrientedCmp.gt_iff_lt.1 hab]
      decide
    · exact fun a b hab => hab

theorem foldl_fill (h : m.Merges buffered merged) (d : Direction) (is : List ℕ) :
    (is.foldl (Merger.fill d) m).Merges (fun d' j => buffered d' j ∨ d' = d ∧ j ∈ is) merged ∧
      (is.foldl (Merger.fill d) m).sources.length = m.sources.length := by
  induction is generalizing m buffered with
  | nil => exact ⟨{ h with buffered := fun d' j hb => h.buffered d' j (by simpa using hb) }, rfl⟩
  | cons i is ih =>
    obtain ⟨hrest, hlen⟩ := ih (h.fill d i)
    refine ⟨{ hrest with buffered := fun d' j hb => hrest.buffered d' j ?_ }, hlen.trans ?_⟩
    · simpa only [mem_cons, and_or_left, or_assoc] using hb
    · rw [Merger.fill]
      split <;> simp

theorem initializeEnd (h : m.Merges (fun d _ => m.initialized d = true) merged) (d : Direction) :
    (m.initializeEnd d).Merges (fun d' _ => (m.initializeEnd d).initialized d' = true) merged := by
  obtain ⟨hall, hlen⟩ := h.foldl_fill d (List.range m.sources.length)
  refine ⟨hall.sorted, hall.items, hall.heap, hall.sources, fun d' j hb x hx => ?_⟩
  refine hall.buffered d' j ?_ x hx
  by_cases hd : d' = d
  · refine Or.inr ⟨hd, mem_range.2 (hlen ▸ ?_)⟩
    by_contra hj
    rw [tagged, source_eq_nil (m := m.initializeEnd d) hj] at hx
    cases hx
  · exact Or.inl (by simpa [Merger.initializeEnd, hd] using hb)

theorem popped (h : m.Merges buffered merged) (hb : ∀ i, buffered d i) {top : MergerEntry K V}
    (htop : (d.view m.heap).head? = some top) : ∃ later, d.view merged = top :: later ∧
      Merges { m with heap := pop d m.heap }
        (fun d' j => buffered d' j ∧ ¬ (d' = d ∧ j = top.source)) (d.view later) := by
  obtain ⟨hs, hheap⟩ := head?_eq_some_iff.1 htop
  have hmem : ∀ e, e ∈ m.heap ↔ e ∈ top :: hs := fun e => hheap ▸ (view_perm _).mem_iff.symm
  have hitem : ∀ e, e ∈ merged ↔ e ∈ m.heap ∨ ∃ i, e ∈ m.tagged i := fun e =>
    h.items.mem_iff.symm.trans mem_items
  have hin : top ∈ d.view merged :=
    (view_perm _).mem_iff.2 ((hitem top).2 (Or.inl ((hmem top).2 mem_cons_self)))
  obtain ⟨first, later, hmerged⟩ := exists_cons_of_ne_nil (ne_nil_of_mem hin)
  have hsorted := (pairwise_view (d := d) (· = .lt)).2 h.sorted
  rw [hmerged, pairwise_cons] at hsorted
  have hfirst : ∀ e ∈ merged, d.cmp e first ≠ .lt := by
    intro e he hlt
    rcases mem_cons.1 (hmerged ▸ (view_perm _).mem_iff.2 he) with rfl | he
    · cases (Std.ReflCmp.compare_self : d.cmp e e = .eq).symm.trans hlt
    · rw [← Std.OrientedCmp.gt_iff_lt, hsorted.1 e he] at hlt
      cases hlt
  have hheapSorted := (pairwise_view (d := d) (· ≠ .gt)).2 h.heap
  rw [hheap, pairwise_cons] at hheapSorted
  obtain rfl : first = top := by
    have hmem' : first ∈ top :: hs := by
      rcases (hitem first).1 ((view_perm _).mem_iff.1 (hmerged ▸ mem_cons_self)) with hf | ⟨i, hf⟩
      · exact (hmem first).1 hf
      · obtain ⟨e, he, -, hlt⟩ := h.buffered d i (hb i) first hf
        exact absurd hlt (hfirst e ((hitem e).2 (Or.inl he)))
    rcases mem_cons.1 hmem' with heq | hf
    · exact heq
    · rcases mem_cons.1 (hmerged ▸ hin) with heq | ht
      · exact heq.symm
      · exact absurd (Std.OrientedCmp.gt_iff_lt.2 (hsorted.1 top ht)) (hheapSorted.1 first hf)
  refine ⟨later, hmerged, ?_, ?_, ?_, h.sources, fun d' j hb' x hx => ?_⟩
  · exact (pairwise_view (· = .lt)).1 (by rw [view_view]; exact hsorted.2)
  · have hall : (first :: (pop d m.heap ++
        (m.sources.mapIdx fun i s => s.map (MergerEntry.mk i)).flatten)).Perm (first :: d.view later) := by
      refine List.Perm.trans ?_ (h.items.trans ?_)
      · change ((first :: pop d m.heap) ++ _).Perm (m.heap ++ _)
        refine List.Perm.append_right _ (List.Perm.trans ?_ (view_perm (d := d) m.heap))
        rw [pop, hheap]
        exact (view_perm hs).cons _
      · refine (view_perm (d := d) merged).symm.trans ?_
        rw [hmerged]
        exact (view_perm later).symm.cons _
    exact hall.cons_inv
  · refine (pairwise_view (d := d) (· ≠ .gt)).1 ?_
    rw [pop, view_view, hheap]
    exact hheapSorted.2
  · obtain ⟨e, he, hsrc, hlt⟩ := h.buffered d' j hb'.1 x hx
    refine ⟨e, (view_perm _).mem_iff.2 ?_, hsrc, hlt⟩
    rw [hheap]
    rcases mem_cons.1 ((hmem e).1 he) with rfl | he
    · -- in the other direction `x` would come before the first item
      have hd : d' = d.opposite := by
        have : d' ≠ d := fun hd => hb'.2 ⟨hd, hsrc.symm⟩
        revert this
        cases d <;> cases d' <;> simp [Direction.opposite]
      refine absurd ?_ (hfirst x ((hitem x).2 (Or.inr ⟨j, hx⟩)))
      rw [← hlt, hd]
      cases d <;> rfl
    · exact he

theorem eq_nil (h : m.Merges buffered merged) (hb : ∀ i, buffered d i) (hheap : m.heap = []) :
    merged = [] := by
  refine eq_nil_iff_forall_not_mem.2 fun e he => ?_
  rcases mem_items.1 (h.items.mem_iff.2 he) with he | ⟨i, hi⟩
  · rw [hheap] at he
    cases he
  · obtain ⟨e', he', -⟩ := h.buffered d i (hb i) e hi
    rw [hheap] at he'
    cases he'

theorem advance (h : m.Merges (fun d _ => m.initialized d = true) merged) (d : Direction) :
    (m.advance d).1 = ((d.view merged).map (·.value)).head? ∧
      (m.advance d).2.Merges (fun d' _ => (m.advance d).2.initialized d' = true)
        (d.view (d.view merged).tail) := by
  rw [Merger.advance]
  obtain ⟨m', hm'⟩ : ∃ m', m' = if m.initialized d then m else m.initializeEnd d := ⟨_, rfl⟩
  have h' : m'.Merges (fun d' _ => m'.initialized d' = true) merged ∧ m'.initialized d = true := by
    rw [hm']
    split
    · exact ⟨h, ‹_›⟩
    · exact ⟨h.initializeEnd d, Function.update_self ..⟩
  rw [← hm']
  obtain ⟨h', hd⟩ := h'
  cases htop : (d.view m'.heap).head? with
  | none =>
    have hnil := h'.eq_nil (d := d) (fun _ => hd)
      ((view_perm (d := d) m'.heap).symm.trans (head?_eq_none_iff.1 htop ▸ List.Perm.refl _)).eq_nil
    subst hnil
    exact ⟨by simp, by simpa using h'⟩
  | some top =>
    obtain ⟨later, hmerged, hpop⟩ := h'.popped (fun _ => hd) htop
    rw [hmerged, tail_cons]
    dsimp only
    have hweaken : ∀ {m : Merger K V}, m.Merges (fun d' j => (m'.initialized d' = true ∧
        ¬ (d' = d ∧ j = top.source)) ∨ d' = d ∧ j = top.source) (d.view later) →
        m.Merges (fun d' _ => m'.initialized d' = true) (d.view later) := fun h =>
      { h with buffered := fun d' j hb => h.buffered d' j (by tauto) }
    cases hp : d.pull (m'.source top.source) with
    | none => exact ⟨rfl, hweaken (hpop.drained hp)⟩
    | some x =>
      refine ⟨rfl, hweaken (hpop.pulled hp ?_ ?_)⟩
      · refine (view_perm _).trans ((perm_orderedInsert _ _ _).trans ?_)
        exact (view_perm _).symm.cons _
      · refine (pairwise_view (d := d) (· ≠ .gt)).1 ?_
        rw [replace, view_view]
        refine pairwise_orderedInsert (fun _ _ hab => hab) (fun a b hab => ?_) _ ?_
        · rw [not_not] at hab
          rw [Std.OrientedCmp.gt_iff_lt.1 hab]
          decide
        · exact ((pairwise_view (d := d) (· ≠ .gt)).2 h'.heap).tail

theorem new {sources : List (List (InternalValue K V))}
    (hs : ∀ s ∈ sources, s.Pairwise (·.compareWith · = .lt)) :
    (Merger.new sources).Merges (fun d _ => (Merger.new sources).initialized d = true)
      (SeekingMerger.taggedMerge sources) := by
  have hsources : ∀ i, ((Merger.new sources).tagged i).Pairwise (minCmp · · = .lt) := by
    intro i
    rw [tagged, source, Merger.new]
    cases hi : sources[i]? with
    | none => exact List.Pairwise.nil
    | some s =>
      refine pairwise_map.2 ((hs s (mem_of_getElem? hi)).imp fun hlt => ?_)
      simp [minCmp, hlt]
  have hle : ∀ s ∈ sources, s.Pairwise (·.le · = true) := fun s hmem =>
    (hs s hmem).imp fun {a b} hlt => le_of_minCmp (a := ⟨0, a⟩) (b := ⟨0, b⟩) (by simp [minCmp, hlt])
  have hmerge := SeekingMerger.taggedMerge_isMerge hle
  refine ⟨pairwise_iff_forall_sublist.2 fun {a b} hsub => ?_, (KWayMerge.mergeAll_perm ..).symm,
    List.Pairwise.nil, hsources, fun _ _ h => absurd h (by simp [Merger.new])⟩
  have hgt := pairwise_iff_forall_sublist.1 hmerge.sorted hsub
  by_cases hsrc : a.source = b.source
  · have hfilter := hsub.filter fun e => e.source = b.source
    rw [hmerge.sources] at hfilter
    have hlist : (SeekingMerger.new sources).remaining .forward b.source =
        (Merger.new sources).tagged b.source := by
      simp [SeekingMerger.remaining, SeekingMerger.leaf, SeekingMerger.side, SeekingMerger.new,
        SeekingMerger.tagged, Direction.view, tagged, source, Merger.new, Direction.opposite]
    rw [hlist] at hfilter
    exact pairwise_iff_forall_sublist.1 (hsources _) (by simpa [hsrc] using hfilter)
  · exact Std.OrientedCmp.gt_iff_lt.1 (Direction.cmp_gt (d := .forward) hgt hsrc)

end Merges

theorem yields : Yields fun (m : Merger K V) l => ∃ merged,
    m.Merges (fun d _ => m.initialized d = true) merged ∧ l = merged.map (·.value) where
  next := by
    rintro m _ ⟨merged, h, rfl⟩
    obtain ⟨hfirst, hrest⟩ := h.advance .forward
    exact ⟨hfirst, _, hrest, (map_tail ..).symm⟩
  nextBack := by
    rintro m _ ⟨merged, h, rfl⟩
    obtain ⟨hfirst, hrest⟩ := h.advance .backward
    refine ⟨hfirst.trans ?_, _, hrest, ?_⟩
    · simp [Direction.view]
    · simp [Direction.view]
  bound := by
    rintro m _ ⟨merged, h, rfl⟩
    rw [length_map]
    exact h.items.length_eq.ge

/-- From both ends and in any interleaving a merger yields the merge of its sources, of which none
has two items of one key and sequence number. -/
theorem drive_merged {sources : List (List (InternalValue K V))}
    (hs : ∀ s ∈ sources, s.Pairwise (·.compareWith · = .lt)) (calls : List End) :
    drive calls (Merger.new sources) = drive calls (KWayMerge.mergeAll InternalValue.le sources) :=
  yields.drive_eq ⟨_, .new hs, (SeekingMerger.taggedMerge_value sources).symm⟩ calls

theorem twoSources_driven :
    drive [.back, .front, .front, .back, .front] (Merger.new [[⟨1, 3, .value, 10⟩, ⟨2, 5, .value, 11⟩],
      [⟨1, 3, .value, 20⟩, ⟨1, 2, .value, 21⟩]] : Merger ℕ ℕ) =
      [some ⟨2, 5, .value, 11⟩, some ⟨1, 3, .value, 10⟩, some ⟨1, 3, .value, 20⟩,
        some ⟨1, 2, .value, 21⟩, none] := by
  rw [drive_merged (by decide)]
  decide

/-- Three items of one source under one key and sequence number: after the last one the second
comes before the first. -/
theorem tiedItems_out_of_order : ∃ sources : List (List (InternalValue ℕ ℕ)),
    (∀ s ∈ sources, s.Pairwise (·.le · = true)) ∧ ∃ calls,
      drive calls (Merger.new sources) ≠ drive calls (KWayMerge.mergeAll InternalValue.le sources) :=
  ⟨[[⟨0, 0, .value, 1⟩, ⟨0, 0, .value, 2⟩, ⟨0, 0, .value, 3⟩]], by decide, [.back, .front], by decide⟩

end Merger

end LsmTree
