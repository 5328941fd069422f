import Mathlib

/-! Merging readers through a heap of their heads. -/
namespace HeapMerge

open List

variable {α : Type*} (le : α → α → Bool) (pick : List (List α) → ℕ)

def heads (readers : List (List α)) : List α := readers.filterMap List.head?

/-- The readers whose head is least. -/
def candidates (readers : List (List α)) : List ℕ :=
  (List.range readers.length).filter fun i =>
    match readers[i]?.bind List.head? with
    | some a => (heads readers).all fun b => le a b
    | none => false

def next (readers : List (List α)) : Option (α × List (List α)) :=
  let cs := candidates le readers
  match cs[pick readers % cs.length]? with
  | none => none
  | some i =>
    match readers[i]? with
    | some (a :: rest) => some (a, readers.set i rest)
    | _ => none

def mergeFuel : ℕ → List (List α) → List α
  | 0, _ => []
  | fuel + 1, readers =>
    match next le pick readers with
    | none => []
    | some (a, readers') => a :: mergeFuel fuel readers'

def merge (readers : List (List α)) : List α :=
  mergeFuel le pick (readers.map List.length).sum readers

variable {le pick} {readers readers' : List (List α)} {a b : α}

theorem next_spec (h : next le pick readers = some (a, readers')) :
    ∃ i rest, readers[i]? = some (a :: rest) ∧ readers' = readers.set i rest ∧
      ∀ b ∈ heads readers, le a b = true := by
  unfold next at h
  dsimp only at h
  split at h
  · cases h
  · rename_i i hi
    split at h
    · rename_i a' rest hreader
      cases h
      refine ⟨i, rest, hreader, rfl, ?_⟩
      have hmem := mem_of_getElem? hi
      simp only [candidates, mem_filter, hreader, Option.bind_some, head?_cons,
        all_eq_true] at hmem
      exact hmem.2
    · cases h

theorem getElem?_set_tail {i j : ℕ} {rest r : List α} (h : readers[i]? = some (a :: rest))
    (hj : (readers.set i rest)[j]? = some r) : ∃ s, readers[j]? = some s ∧ r.Sublist s := by
  by_cases hij : i = j
  · subst hij
    rw [List.getElem?_set_self (List.getElem?_eq_some_iff.1 h).1] at hj
    cases hj
    exact ⟨_, h, List.sublist_cons_self a rest⟩
  · rw [getElem?_set_ne hij] at hj
    exact ⟨r, hj, List.Sublist.refl _⟩

theorem flatten_set_perm {i : ℕ} {rest : List α} (h : readers[i]? = some (a :: rest)) :
    readers.flatten.Perm (a :: (readers.set i rest).flatten) := by
  induction readers generalizing i with
  | nil => cases h
  | cons r readers ih =>
    cases i with
    | zero =>
      cases h
      exact List.Perm.refl _
    | succ i =>
      rw [set_cons_succ, flatten_cons, flatten_cons]
      exact ((ih h).append_left r).trans perm_middle

theorem mem_mergeFuel {fuel : ℕ} (h : b ∈ mergeFuel le pick fuel readers) :
    ∃ (i : ℕ) (r : List α), readers[i]? = some r ∧ b ∈ r := by
  induction fuel generalizing readers with
  | zero => cases h
  | succ fuel ih =>
    rw [mergeFuel] at h
    split at h
    · cases h
    · rename_i a readers' hnext
      obtain ⟨i, rest, hi, rfl, -⟩ := next_spec hnext
      rcases mem_cons.1 h with rfl | h
      · exact ⟨i, _, hi, mem_cons_self⟩
      · obtain ⟨j, r, hj, hb⟩ := ih h
        obtain ⟨s, hs, hsub⟩ := getElem?_set_tail hi hj
        exact ⟨j, s, hs, hsub.subset hb⟩

theorem mergeFuel_pairwise {R : α → α → Prop} {fuel : ℕ}
    (hown : ∀ (i : ℕ) r, readers[i]? = some r → r.Pairwise R)
    (hcross : ∀ (i j : ℕ) r s, i ≠ j → readers[i]? = some r → readers[j]? = some s →
      ∀ a ∈ r, ∀ b ∈ s, R a b) : (mergeFuel le pick fuel readers).Pairwise R := by
  induction fuel generalizing readers with
  | zero => exact List.Pairwise.nil
  | succ fuel ih =>
    rw [mergeFuel]
    split
    · exact List.Pairwise.nil
    · rename_i a readers' hnext
      obtain ⟨i, rest, hi, rfl, -⟩ := next_spec hnext
      refine List.pairwise_cons.2 ⟨fun b hb => ?_, ih ?_ ?_⟩
      · obtain ⟨j, r, hj, hbr⟩ := mem_mergeFuel hb
        obtain ⟨s, hs, hsub⟩ := getElem?_set_tail hi hj
        by_cases hij : i = j
        · subst hij
          rw [List.getElem?_set_self (List.getElem?_eq_some_iff.1 hi).1] at hj
          cases hj
          exact (List.pairwise_cons.1 (hown i _ hi)).1 b hbr
        · exact hcross i j _ s hij hi hs a mem_cons_self b (hsub.subset hbr)
      · intro j r hj
        obtain ⟨s, hs, hsub⟩ := getElem?_set_tail hi hj
        exact (hown j s hs).sublist hsub
      · intro j k r r' hjk hj hk x hx y hy
        obtain ⟨s, hs, hsub⟩ := getElem?_set_tail hi hj
        obtain ⟨s', hs', hsub'⟩ := getElem?_set_tail hi hk
        exact hcross j k s s' hjk hs hs' x (hsub.subset hx) y (hsub'.subset hy)

section Sorted

variable {β : Type*} [LinearOrder β] {rank : α → β}
  (hle : ∀ a b, le a b = true ↔ rank a ≤ rank b)
include hle

theorem mergeFuel_sorted {fuel : ℕ}
    (hsorted : ∀ (i : ℕ) r, readers[i]? = some r → r.Pairwise (rank · ≤ rank ·)) :
    (mergeFuel le pick fuel readers).Pairwise (rank · ≤ rank ·) := by
  induction fuel generalizing readers with
  | zero => exact List.Pairwise.nil
  | succ fuel ih =>
    rw [mergeFuel]
    split
    · exact List.Pairwise.nil
    · rename_i a readers' hnext
      obtain ⟨i, rest, hi, rfl, hleast⟩ := next_spec hnext
      refine List.pairwise_cons.2 ⟨fun b hb => ?_, ih fun j r hj => ?_⟩
      · obtain ⟨j, r, hj, hbr⟩ := mem_mergeFuel hb
        by_cases hij : i = j
        · subst hij
          rw [List.getElem?_set_self (List.getElem?_eq_some_iff.1 hi).1] at hj
          cases hj
          exact (List.pairwise_cons.1 (hsorted i _ hi)).1 b hbr
        · rw [getElem?_set_ne hij] at hj
          -- the head of the other reader lies between
          obtain ⟨c, r, rfl⟩ := exists_cons_of_ne_nil (ne_nil_of_mem hbr)
          have hac : rank a ≤ rank c :=
            (hle a c).1 (hleast c (mem_filterMap.2 ⟨_, mem_of_getElem? hj, rfl⟩))
          rcases mem_cons.1 hbr with rfl | hbr
          · exact hac
          · exact hac.trans ((List.pairwise_cons.1 (hsorted j _ hj)).1 b hbr)
      · obtain ⟨s, hs, hsub⟩ := getElem?_set_tail hi hj
        exact (hsorted j s hs).sublist hsub

theorem next_isSome (h : ∃ r ∈ readers, r ≠ []) : ∃ x, next le pick readers = some x := by
  obtain ⟨r, hr, hne⟩ := h
  obtain ⟨c, rest, rfl⟩ := exists_cons_of_ne_nil hne
  have hheads : heads readers ≠ [] :=
    ne_nil_of_mem (mem_filterMap.2 ⟨_, hr, rfl⟩ : c ∈ heads readers)
  obtain ⟨a, hmin⟩ := Option.ne_none_iff_exists'.1 (mt (argmin_eq_none (f := rank)).1 hheads)
  obtain ⟨s, hs, hhead⟩ := mem_filterMap.1 (argmin_mem hmin)
  obtain ⟨i, hi⟩ := mem_iff_getElem?.1 hs
  have hcand : i ∈ candidates le readers := by
    simp only [candidates, mem_filter, mem_range, hi, Option.bind_some, hhead,
      all_eq_true]
    exact ⟨(List.getElem?_eq_some_iff.1 hi).1, fun b hb => (hle a b).2 (le_of_mem_argmin hb hmin)⟩
  have hpos : 0 < (candidates le readers).length := List.length_pos_of_mem hcand
  obtain ⟨j, hj⟩ : ∃ j, (candidates le readers)[pick readers % (candidates le readers).length]? =
      some j := by
    rw [getElem?_eq_getElem (Nat.mod_lt _ hpos)]
    exact ⟨_, rfl⟩
  have hjmem := mem_of_getElem? hj
  simp only [candidates, mem_filter, mem_range] at hjmem
  have hlt := hjmem.1
  simp only [next, hj]
  cases hreader : readers[j]? with
  | none => simp [hreader] at hjmem
  | some r =>
    cases r with
    | nil => simp [hreader] at hjmem
    | cons x rest => exact ⟨_, rfl⟩

theorem mergeFuel_perm {fuel : ℕ} (hfuel : readers.flatten.length = fuel) :
    (mergeFuel le pick fuel readers).Perm readers.flatten := by
  induction fuel generalizing readers with
  | zero => rw [mergeFuel, length_eq_zero_iff.1 hfuel]
  | succ fuel ih =>
    have hsome : ∃ r ∈ readers, r ≠ [] := by
      by_contra hnone
      have hnil : readers.flatten = [] := by
        rw [flatten_eq_nil_iff]
        intro r hr
        by_contra hne
        exact hnone ⟨r, hr, hne⟩
      rw [hnil] at hfuel
      cases hfuel
    obtain ⟨⟨a, readers'⟩, hnext⟩ := next_isSome hle hsome
    obtain ⟨i, rest, hi, rfl, -⟩ := next_spec hnext
    have hperm := flatten_set_perm hi
    have hlen : (readers.set i rest).flatten.length = fuel := by
      have := hperm.length_eq
      rw [hfuel, length_cons] at this
      exact (Nat.succ.inj this).symm
    rw [mergeFuel, hnext]
    exact ((ih hlen).cons a).trans hperm.symm

variable (pick readers) in
theorem merge_perm : (merge le pick readers).Perm readers.flatten :=
  mergeFuel_perm hle length_flatten

end Sorted

end HeapMerge
