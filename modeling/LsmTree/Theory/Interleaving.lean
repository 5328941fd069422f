import LsmTree.Theory.KWayMerge

/-! A sorted list as the interleaving of numbered sources, consumed from either end. -/
namespace Interleaving

open Function List

variable {α : Type*} {src : α → ℕ} {cmp : α → α → Ordering} {remaining : ℕ → List α}
  {merged : List α}

/-- `merged` is sorted, and source `i` has exactly the items `remaining i` in it, in order. -/
structure IsMerge (src : α → ℕ) (cmp : α → α → Ordering) (remaining : ℕ → List α)
    (merged : List α) : Prop where
  sorted : merged.Pairwise fun a b => cmp a b ≠ .gt
  sources : ∀ i, merged.filter (fun a => src a = i) = remaining i

theorem IsMerge.eq_nil (h : IsMerge src cmp remaining merged) (hempty : ∀ i, remaining i = []) :
    merged = [] := by
  cases merged with
  | nil => rfl
  | cons a merged =>
    have := h.sources (src a)
    rw [hempty, filter_cons_of_pos (by simp)] at this
    cases this

theorem IsMerge.congr {remaining' : ℕ → List α} (h : IsMerge src cmp remaining merged)
    (heq : ∀ i, remaining i = remaining' i) : IsMerge src cmp remaining' merged :=
  ⟨h.sorted, fun i => (h.sources i).trans (heq i)⟩

theorem IsMerge.pop (h : IsMerge src cmp remaining merged) {i : ℕ} {a : α} {rest : List α}
    (ha : remaining i = a :: rest)
    (hmin : ∀ j b, j ≠ i → (remaining j).head? = some b → cmp b a = .gt) :
    ∃ merged', merged = a :: merged' ∧
      IsMerge src cmp (update remaining i rest) merged' := by
  have hmem : a ∈ merged.filter fun x => src x = i := by
    rw [h.sources i, ha]
    exact mem_cons_self
  obtain ⟨hmem, hsrc⟩ := mem_filter.1 hmem
  cases merged with
  | nil => cases hmem
  | cons x merged =>
    have hx := h.sources (src x)
    rw [filter_cons_of_pos (by simp)] at hx
    have hsorted := pairwise_cons.1 h.sorted
    by_cases hxi : src x = i
    · subst hxi
      rw [ha, List.cons.injEq] at hx
      obtain ⟨rfl, hrest⟩ := hx
      refine ⟨merged, rfl, hsorted.2, fun j => ?_⟩
      by_cases hj : j = src x
      · subst hj
        rw [update_self]
        exact hrest
      · rw [update_of_ne hj, ← h.sources j, filter_cons_of_neg]
        simpa using Ne.symm hj
    · have hgt := hmin (src x) x hxi (by rw [← hx]; rfl)
      have hle : cmp x a ≠ .gt := by
        rcases mem_cons.1 hmem with rfl | hmem
        · exact absurd (of_decide_eq_true hsrc) hxi
        · exact hsorted.1 a hmem
      exact absurd hgt hle

theorem IsMerge.reverse (h : IsMerge src cmp remaining merged) :
    IsMerge src (fun a b => cmp b a) (fun i => (remaining i).reverse) merged.reverse := by
  refine ⟨pairwise_reverse.2 h.sorted, fun i => ?_⟩
  rw [filter_reverse, h.sources]

variable (src) in
theorem eq_of_filter_eq {l l' : List α} (hl : l.Pairwise fun a b => cmp a b ≠ .gt)
    (hl' : l'.Pairwise fun a b => cmp a b ≠ .gt)
    (hcmp : ∀ a b, src a ≠ src b → cmp a b ≠ .gt → cmp b a = .gt)
    (h : ∀ i, l.filter (fun a => src a = i) = l'.filter (fun a => src a = i)) : l = l' := by
  induction l generalizing l' with
  | nil => exact (IsMerge.eq_nil ⟨hl', fun i => (h i).symm⟩ fun _ => rfl).symm
  | cons x xs ih =>
    have hx := pairwise_cons.1 hl
    have hmerge : IsMerge src cmp (fun i => (x :: xs).filter fun a => src a = i) l' :=
      ⟨hl', fun i => (h i).symm⟩
    have hhead : (x :: xs).filter (fun a => src a = src x) =
        x :: xs.filter fun a => src a = src x := filter_cons_of_pos (by simp)
    obtain ⟨l'', rfl, hrest⟩ := hmerge.pop hhead (by
      intro j b hj hb
      have hmem := mem_filter.1 (mem_of_head? hb)
      have hsrc : src b = j := of_decide_eq_true hmem.2
      rcases mem_cons.1 hmem.1 with rfl | hin
      · exact absurd hsrc.symm hj
      · exact hcmp x b (fun he => hj (hsrc ▸ he.symm)) (hx.1 b hin))
    congr 1
    apply ih hx.2 hrest.sorted
    intro i
    rw [hrest.sources i]
    by_cases hi : i = src x
    · subst hi
      rw [update_self]
    · rw [update_of_ne hi, filter_cons_of_neg (by simpa using Ne.symm hi)]

end Interleaving

namespace KWayMerge

open List

variable {α β : Type*} {le : α → α → Bool} {p : α → Bool}

variable {xs ys : List α}

theorem filter_merge_left (hy : ∀ y ∈ ys, p y = false) :
    (merge le xs ys).filter p = xs.filter p := by
  induction xs generalizing ys with
  | nil => simpa [merge] using hy
  | cons x xs ih =>
    change (mergeFrom le x (merge le xs) ys).filter p = _
    induction ys with
    | nil => rw [mergeFrom, filter_cons, ih hy, ← filter_cons]
    | cons y ys ihy =>
      rw [mergeFrom]
      split
      · rw [filter_cons, ih hy, ← filter_cons]
      · rw [filter_cons_of_neg (by simp [hy y])]
        exact ihy fun z hz => hy z (mem_cons_of_mem _ hz)

theorem filter_merge_right (hx : ∀ x ∈ xs, p x = false) :
    (merge le xs ys).filter p = ys.filter p := by
  induction xs generalizing ys with
  | nil => rfl
  | cons x xs ih =>
    have hxs : ∀ z ∈ xs, p z = false := fun z hz => hx z (mem_cons_of_mem _ hz)
    have hpx : ¬ p x = true := by simp [hx x]
    change (mergeFrom le x (merge le xs) ys).filter p = _
    induction ys with
    | nil => rw [mergeFrom, filter_cons_of_neg hpx, ih hxs]
    | cons y ys ihy =>
      rw [mergeFrom]
      split
      · rw [filter_cons_of_neg hpx, ih hxs]
      · rw [filter_cons, ihy, ← filter_cons]

variable {le' : β → β → Bool} {f : α → β}

theorem map_merge (h : ∀ a ∈ xs, ∀ b ∈ ys, le a b = le' (f a) (f b)) :
    (merge le xs ys).map f = merge le' (xs.map f) (ys.map f) := by
  rw [merge_eq, merge_eq]
  exact List.map_merge h

theorem map_mergeAll_of_le (le' : β → β → Bool) (h : ∀ a b, le a b = le' (f a) (f b))
    (sources : List (List α)) :
    (mergeAll le sources).map f = mergeAll le' (sources.map (·.map f)) := by
  induction sources with
  | nil => rfl
  | cons s sources ih =>
    change (merge le s (mergeAll le sources)).map f = merge le' (s.map f) _
    rw [map_merge fun a _ b _ => h a b, ih]
    rfl

variable {src : α → ℕ} {sources : List (List α)} {k : ℕ}

/-- The sources of the items are numbered from `k` on. -/
def Numbered (src : α → ℕ) (k : ℕ) (sources : List (List α)) : Prop :=
  ∀ i s, sources[i]? = some s → ∀ a ∈ s, src a = k + i

theorem Numbered.tail {s : List α} (hsrc : Numbered src k (s :: sources)) :
    Numbered src (k + 1) sources := by
  intro i t ht a ha
  rw [hsrc (i + 1) t (by simpa using ht) a ha]
  omega

theorem Numbered.lt (hsrc : Numbered src (k + 1) sources) {b : α} (hb : b ∈ mergeAll le sources) :
    k < src b := by
  obtain ⟨t, ht, hb⟩ := mem_mergeAll.1 hb
  obtain ⟨i, hi⟩ := mem_iff_getElem?.1 ht
  rw [hsrc i t hi b hb]
  omega

variable (le) in
theorem filter_mergeAll (hsrc : Numbered src k sources) (i : ℕ) :
    (mergeAll le sources).filter (fun a => src a = k + i) = sources[i]?.getD [] := by
  induction sources generalizing k i with
  | nil => rfl
  | cons s sources ih =>
    have hs := hsrc 0 s rfl
    change (merge le s (mergeAll le sources)).filter _ = _
    cases i with
    | zero =>
      rw [filter_merge_left]
      · simpa using hs
      · exact fun y hy => decide_eq_false (hsrc.tail.lt hy).ne'
    | succ i =>
      rw [filter_merge_right]
      · have := ih hsrc.tail i
        rw [Nat.add_assoc, Nat.add_comm 1 i] at this
        simpa using this
      · intro x hx
        simp [hs x hx]

theorem map_mergeAll (hsrc : Numbered src k sources)
    (hle : ∀ a b, src a < src b → le a b = le' (f a) (f b)) :
    (mergeAll le sources).map f = mergeAll le' (sources.map (·.map f)) := by
  induction sources generalizing k with
  | nil => rfl
  | cons s sources ih =>
    change (merge le s (mergeAll le sources)).map f = merge le' (s.map f) _
    rw [map_merge, ih hsrc.tail]
    · rfl
    · exact fun a ha b hb => hle a b ((hsrc 0 s rfl a ha).trans_lt (hsrc.tail.lt hb))

theorem mergeAll_pairwise_numbered {r : α → α → Prop} (trans : ∀ a b c, r a b → r b c → r a c)
    (of_le : ∀ a b, src a < src b → le a b = true → r a b)
    (of_not_le : ∀ a b, src a < src b → le a b = false → r b a)
    (hsrc : Numbered src k sources) (h : ∀ s ∈ sources, s.Pairwise r) :
    (mergeAll le sources).Pairwise r := by
  induction sources generalizing k with
  | nil => exact List.Pairwise.nil
  | cons s sources ih =>
    have hlt : ∀ a ∈ s, ∀ b ∈ mergeAll le sources, src a < src b := fun a ha b hb =>
      (hsrc 0 s rfl a ha).trans_lt (hsrc.tail.lt hb)
    obtain ⟨hs, hsources⟩ := forall_mem_cons.1 h
    exact merge_pairwise trans (fun a ha b hb => of_le a b (hlt a ha b hb))
      (fun a ha b hb => of_not_le a b (hlt a ha b hb)) hs (ih hsrc.tail hsources)

end KWayMerge
