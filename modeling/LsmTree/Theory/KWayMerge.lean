import Mathlib

/-! Merging sorted sources, a tie going to the source of the lower index. -/
namespace KWayMerge

open List

variable {α : Type*} (le : α → α → Bool)

/-- Puts `x` in front of the first element it is below, and goes on with `rest` from there. -/
def mergeFrom (x : α) (rest : List α → List α) : List α → List α
  | [] => x :: rest []
  | y :: ys => if le x y then x :: rest (y :: ys) else y :: mergeFrom x rest ys

def merge : List α → List α → List α
  | [] => id
  | x :: xs => mergeFrom le x (merge xs)

def mergeAll (sources : List (List α)) : List α := sources.foldr (merge le) []

variable {le}

theorem merge_eq (xs ys : List α) : merge le xs ys = xs.merge ys le := by
  induction xs generalizing ys with
  | nil => simp [merge]
  | cons x xs ih =>
    change mergeFrom le x (merge le xs) ys = _
    induction ys with
    | nil => simp [mergeFrom, ih]
    | cons y ys ihy =>
      simp only [mergeFrom, cons_merge_cons]
      split
      · rw [ih]
      · rw [ihy]

theorem merge_perm (xs ys : List α) : (merge le xs ys).Perm (xs ++ ys) := by
  rw [merge_eq]
  exact merge_perm_append le

theorem mergeAll_perm (sources : List (List α)) :
    (mergeAll le sources).Perm sources.flatten := by
  induction sources with
  | nil => exact List.Perm.refl _
  | cons s sources ih => exact (merge_perm s _).trans (ih.append_left s)

theorem mem_mergeAll {sources : List (List α)} {a : α} :
    a ∈ mergeAll le sources ↔ ∃ s ∈ sources, a ∈ s :=
  (mergeAll_perm sources).mem_iff.trans mem_flatten

section Sorted

variable {r : α → α → Prop}

theorem merge_pairwise (trans : ∀ a b c, r a b → r b c → r a c) {xs ys : List α}
    (of_le : ∀ x ∈ xs, ∀ y ∈ ys, le x y = true → r x y)
    (of_not_le : ∀ x ∈ xs, ∀ y ∈ ys, le x y = false → r y x)
    (hx : xs.Pairwise r) (hy : ys.Pairwise r) : (merge le xs ys).Pairwise r := by
  induction xs generalizing ys with
  | nil => exact hy
  | cons x xs ih =>
    rw [pairwise_cons] at hx
    rw [forall_mem_cons] at of_le of_not_le
    change (mergeFrom le x (merge le xs) ys).Pairwise r
    induction ys with
    | nil =>
      refine pairwise_cons.2 ⟨fun b hb => hx.1 b ?_, ih (by simp) (by simp) hx.2 hy⟩
      simpa using (merge_perm xs []).mem_iff.1 hb
    | cons y ys ihy =>
      have hy' := pairwise_cons.1 hy
      simp only [mergeFrom]
      split
      case isTrue hle =>
        refine pairwise_cons.2 ⟨fun b hb => ?_, ih of_le.2 of_not_le.2 hx.2 hy⟩
        have hxy := of_le.1 y mem_cons_self hle
        rcases mem_append.1 ((merge_perm xs (y :: ys)).mem_iff.1 hb) with h | h
        · exact hx.1 b h
        · rcases mem_cons.1 h with rfl | h
          · exact hxy
          · exact trans x y b hxy (hy'.1 b h)
      case isFalse hle =>
        refine pairwise_cons.2 ⟨fun b hb => ?_, ihy ?_ ?_ hy'.2⟩
        · have hyx := of_not_le.1 y mem_cons_self (Bool.eq_false_iff.2 hle)
          rcases mem_append.1 ((merge_perm (x :: xs) ys).mem_iff.1 hb) with h | h
          · rcases mem_cons.1 h with rfl | h
            · exact hyx
            · exact trans y x b hyx (hx.1 b h)
          · exact hy'.1 b h
        · exact ⟨fun z hz => of_le.1 z (mem_cons_of_mem _ hz),
            fun w hw z hz => of_le.2 w hw z (mem_cons_of_mem _ hz)⟩
        · exact ⟨fun z hz => of_not_le.1 z (mem_cons_of_mem _ hz),
            fun w hw z hz => of_not_le.2 w hw z (mem_cons_of_mem _ hz)⟩

theorem mergeAll_pairwise (trans : ∀ a b c, r a b → r b c → r a c)
    (of_le : ∀ a b, le a b = true → r a b) (of_not_le : ∀ a b, le a b = false → r b a)
    {sources : List (List α)} (h : ∀ s ∈ sources, s.Pairwise r) :
    (mergeAll le sources).Pairwise r := by
  induction sources with
  | nil => exact List.Pairwise.nil
  | cons s sources ih =>
    obtain ⟨hs, hrest⟩ := forall_mem_cons.1 h
    exact merge_pairwise trans (fun a _ b _ => of_le a b) (fun a _ b _ => of_not_le a b) hs
      (ih hrest)

end Sorted

theorem foldr_merge_of_unique {β : Type*} {f : β → List α} {l : List β}
    (h : l.Pairwise fun a b => f a = [] ∨ f b = []) (ys : List α) :
    (l.map f).foldr (merge le) ys = merge le (l.flatMap f) ys := by
  induction l with
  | nil => rfl
  | cons b l ih =>
    obtain ⟨hb, hl⟩ := pairwise_cons.1 h
    rw [map_cons, foldr_cons, ih hl, flatMap_cons]
    by_cases hne : f b = []
    · rw [hne]
      rfl
    · rw [flatMap_eq_nil_iff.2 fun c hc => (hb c hc).resolve_left hne, append_nil]
      rfl

section Laws

variable (trans : ∀ a b c, le a b = true → le b c = true → le a c = true)

theorem merge_cons_left {x : α} {xs ys : List α} (h : ∀ y ∈ ys, le x y = true) :
    merge le (x :: xs) ys = x :: merge le xs ys := by
  cases ys with
  | nil => rfl
  | cons y ys => exact if_pos (h y mem_cons_self)

theorem merge_cons_right {y : α} {xs ys : List α} (h : ∀ x ∈ xs, le x y = false) :
    merge le xs (y :: ys) = y :: merge le xs ys := by
  cases xs with
  | nil => rfl
  | cons x xs => exact if_neg (Bool.eq_false_iff.1 (h x mem_cons_self))

include trans

theorem merge_append {xs xs' : List α} (h : ∀ a ∈ xs, ∀ b ∈ xs', le a b = true) (ys : List α) :
    merge le (xs ++ xs') ys = merge le xs (merge le xs' ys) := by
  induction xs generalizing ys with
  | nil => rfl
  | cons x xs ih =>
    obtain ⟨hx, hxs⟩ := forall_mem_cons.1 h
    have ih := ih hxs
    induction ys with
    | nil =>
      have hright : ∀ y ∈ merge le xs' [], le x y = true := by
        intro y hy
        exact hx y (by simpa using (merge_perm xs' []).mem_iff.1 hy)
      rw [cons_append, merge_cons_left (by simp), merge_cons_left hright, ih]
    | cons y ys ihy =>
      by_cases hxy : le x y = true
      · have hfirst : merge le (x :: (xs ++ xs')) (y :: ys) = x :: merge le (xs ++ xs') (y :: ys) :=
          if_pos hxy
        rw [cons_append, hfirst, ih]
        -- the other side starts with `y` or with an item of `xs'`
        cases xs' with
        | nil => exact (if_pos hxy).symm
        | cons z zs =>
          have hz := hx z mem_cons_self
          by_cases hzy : le z y = true
          · have hsecond : merge le (z :: zs) (y :: ys) = z :: merge le zs (y :: ys) := if_pos hzy
            rw [hsecond]
            exact (if_pos hz).symm
          · have hsecond : merge le (z :: zs) (y :: ys) = y :: merge le (z :: zs) ys := if_neg hzy
            rw [hsecond]
            exact (if_pos hxy).symm
      · have hbelow : ∀ z ∈ xs', le z y = false := fun z hz =>
          Bool.eq_false_iff.2 fun hzy => hxy (trans x z y (hx z hz) hzy)
        have hfirst : merge le (x :: (xs ++ xs')) (y :: ys) = y :: merge le (x :: (xs ++ xs')) ys :=
          if_neg hxy
        rw [cons_append, hfirst, merge_cons_right hbelow, ← cons_append, ihy]
        exact (if_neg hxy).symm

theorem merge_filter (p : α → Bool) {xs ys : List α}
    (hx : xs.Pairwise fun a b => le a b = true) (hy : ys.Pairwise fun a b => le a b = true) :
    (merge le xs ys).filter p = merge le (xs.filter p) (ys.filter p) := by
  induction xs generalizing ys with
  | nil => rfl
  | cons x xs ih =>
    obtain ⟨hxs, htail⟩ := pairwise_cons.1 hx
    induction ys with
    | nil =>
      rw [merge_cons_left (by simp), filter_cons, filter_cons, ih htail hy]
      by_cases hp : p x = true
      · rw [if_pos hp, if_pos hp]
        exact (merge_cons_left (by simp)).symm
      · rw [if_neg hp, if_neg hp]
    | cons y ys ihy =>
      obtain ⟨hys, hytail⟩ := pairwise_cons.1 hy
      by_cases hxy : le x y = true
      · have hall : ∀ z ∈ y :: ys, le x z = true := by
          intro z hz
          rcases mem_cons.1 hz with rfl | hz
          · exact hxy
          · exact trans x y z hxy (hys z hz)
        rw [merge_cons_left hall, filter_cons, ih htail hy]
        by_cases hp : p x = true
        · rw [if_pos hp, filter_cons_of_pos hp]
          exact (merge_cons_left fun z hz => hall z (mem_of_mem_filter hz)).symm
        · rw [if_neg hp, filter_cons_of_neg hp]
      · have hall : ∀ z ∈ x :: xs, le z y = false := by
          intro z hz
          apply Bool.eq_false_iff.2
          rcases mem_cons.1 hz with rfl | hz
          · exact hxy
          · exact fun hzy => hxy (trans x z y (hxs z hz) hzy)
        rw [merge_cons_right hall, filter_cons, ihy hytail]
        by_cases hp : p y = true
        · rw [if_pos hp, filter_cons_of_pos hp]
          exact (merge_cons_right fun z hz => hall z (mem_of_mem_filter hz)).symm
        · rw [if_neg hp, filter_cons_of_neg hp]

theorem mergeAll_filter (total : ∀ a b, le a b = false → le b a = true) (p : α → Bool)
    {sources : List (List α)}
    (h : ∀ s ∈ sources, s.Pairwise fun a b => le a b = true) :
    (mergeAll le sources).filter p = mergeAll le (sources.map (·.filter p)) := by
  induction sources with
  | nil => rfl
  | cons s sources ih =>
    obtain ⟨hs, hrest⟩ := forall_mem_cons.1 h
    have hmerged := mergeAll_pairwise trans (fun _ _ => id) total hrest
    rw [map_cons]
    change (merge le s (mergeAll le sources)).filter p = merge le _ (mergeAll le _)
    rw [merge_filter trans p hs hmerged, ih hrest]

/-- Items that are not told apart stay in the order of their sources. -/
theorem filter_mergeAll_ties (total : ∀ a b, le a b = false → le b a = true) {p : α → Bool}
    (hp : ∀ x y, p x = true → p y = true → le x y = true) {sources : List (List α)}
    (h : ∀ s ∈ sources, s.Pairwise fun a b => le a b = true) :
    (mergeAll le sources).filter p = sources.flatMap (·.filter p) := by
  rw [mergeAll_filter trans total p h]
  clear h
  induction sources with
  | nil => rfl
  | cons s sources ih =>
    change merge le (s.filter p) (mergeAll le _) = _
    rw [ih, flatMap_cons, merge_eq]
    apply merge_of_le
    intro x y hx hy
    obtain ⟨t, -, hy⟩ := mem_flatMap.1 hy
    exact hp x y (mem_filter.1 hx).2 (mem_filter.1 hy).2

theorem foldr_merge_flatten {parts : List (List α)}
    (h : parts.flatten.Pairwise fun a b => le a b = true) (ys : List α) :
    parts.foldr (merge le) ys = merge le parts.flatten ys := by
  induction parts with
  | nil => rfl
  | cons part parts ih =>
    rw [flatten_cons, pairwise_append] at h
    rw [foldr_cons, ih h.2.1, flatten_cons, merge_append trans h.2.2]

end Laws

end KWayMerge
