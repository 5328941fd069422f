import Mathlib

/-! Searches over sorted lists, and over buckets of which one can hold what is looked for. -/
namespace SortedSearch

open List

variable {α K : Type*} [LinearOrder K] {f : α → K} {l : List α} {m : K} {x : α}

theorem takeWhile_eq_filter {p : α → Bool} (h : l.Pairwise fun a b => p b = true → p a = true) :
    l.takeWhile p = l.filter p := by
  induction l with
  | nil => rfl
  | cons a l ih =>
    obtain ⟨ha, hl⟩ := pairwise_cons.1 h
    by_cases hp : p a = true
    · rw [takeWhile_cons_of_pos hp, filter_cons_of_pos hp, ih hl]
    · have hnone : l.filter p = [] := filter_eq_nil_iff.2 fun b hb hpb => hp (ha b hb hpb)
      rw [takeWhile_cons_of_neg hp, filter_cons_of_neg hp, hnone]

theorem mem_takeWhile_le (h : l.Pairwise fun a b => f a ≤ f b) :
    (x ∈ l.takeWhile fun a => decide (f a ≤ m)) ↔ x ∈ l ∧ f x ≤ m := by
  rw [takeWhile_eq_filter, mem_filter, decide_eq_true_eq]
  refine h.imp fun hab hb => ?_
  rw [decide_eq_true_eq] at hb ⊢
  exact hab.trans hb

theorem eq_of_filter_key {l' : List α} (hl : l.Pairwise fun a b => f a ≤ f b)
    (hl' : l'.Pairwise fun a b => f a ≤ f b)
    (h : ∀ k, l.filter (fun a => decide (f a = k)) = l'.filter fun a => decide (f a = k)) :
    l = l' := by
  have hmem : ∀ {x : α}, x ∈ l ↔ x ∈ l' := by
    intro x
    have := congrArg (x ∈ ·) (h (f x))
    simpa using this
  induction l generalizing l' with
  | nil =>
    cases l' with
    | nil => rfl
    | cons y ys => exact absurd (hmem.2 mem_cons_self) not_mem_nil
  | cons x xs ih =>
    cases l' with
    | nil => exact absurd (hmem.1 mem_cons_self) not_mem_nil
    | cons y ys =>
      obtain ⟨hx, hxs⟩ := pairwise_cons.1 hl
      obtain ⟨hy, hys⟩ := pairwise_cons.1 hl'
      have hfirst : ∀ {z zs w}, (∀ b ∈ zs, f z ≤ f b) → w ∈ z :: zs → f z ≤ f w := by
        intro z zs w hz hw
        rcases mem_cons.1 hw with rfl | hw
        · exact le_rfl
        · exact hz w hw
      have hkey : f x = f y :=
        le_antisymm (hfirst hx (hmem.2 mem_cons_self)) (hfirst hy (hmem.1 mem_cons_self))
      have hhead := h (f x)
      rw [filter_cons_of_pos (by simp), filter_cons_of_pos (by simp [hkey])] at hhead
      obtain ⟨rfl, htail⟩ := List.cons.inj hhead
      have hrest : ∀ k, xs.filter (fun a => decide (f a = k)) =
          ys.filter fun a => decide (f a = k) := by
        intro k
        by_cases hk : f x = k
        · rwa [← hk]
        · have := h k
          rwa [filter_cons_of_neg (by simpa using hk),
            filter_cons_of_neg (by simpa using hk)] at this
      rw [ih hxs hys hrest]
      intro z
      have := congrArg (z ∈ ·) (hrest (f z))
      simpa using this

theorem filter_filter_key {k : K} (p : K → Bool) (l : List α) :
    (l.filter fun a => p (f a)).filter (fun a => decide (f a = k)) =
      if p k = true then l.filter fun a => decide (f a = k) else [] := by
  rw [filter_filter]
  split
  case isTrue hk =>
    refine filter_congr fun a _ => ?_
    by_cases ha : f a = k
    · simp [ha, hk]
    · simp [ha]
  case isFalse hk =>
    refine filter_eq_nil_iff.2 fun a _ ha => ?_
    simp only [Bool.and_eq_true, decide_eq_true_eq] at ha
    exact hk (ha.1 ▸ ha.2)

theorem mem_destutter_ne [DecidableEq α] : x ∈ l.destutter (· ≠ ·) ↔ x ∈ l := by
  cases l with
  | nil => simp
  | cons a l =>
    rw [destutter_cons']
    induction l generalizing a with
    | nil => simp
    | cons b l ih =>
      by_cases hab : a = b
      · subst hab
        rw [List.destutter'_cons_neg _ (by simp), ih, mem_cons, mem_cons,
          mem_cons, or_self_left]
      · rw [List.destutter'_cons_pos _ hab, mem_cons, ih, mem_cons, mem_cons,
          mem_cons]

theorem find?_key {κ : Type*} [DecidableEq κ] {g : α → κ} (hnodup : (l.map g).Nodup) (hx : x ∈ l) :
    (l.find? fun a => decide (g a = g x)) = some x := by
  cases hfind : l.find? fun a => decide (g a = g x) with
  | none => simpa using find?_eq_none.1 hfind x hx
  | some a =>
    have hkey : g a = g x := by simpa using find?_some hfind
    rw [inj_on_of_nodup_map hnodup (mem_of_find?_eq_some hfind) hx hkey]

theorem flatMap_eq_of_unique {β γ : Type*} {buckets : List β} {g : β → List γ} {c : β → Prop}
    {b : β} (hone : buckets.Pairwise fun a b => ¬ (c a ∧ c b))
    (hempty : ∀ a ∈ buckets, ¬ c a → g a = []) (hb : b ∈ buckets) (hc : c b) :
    buckets.flatMap g = g b := by
  induction buckets with
  | nil => cases hb
  | cons a buckets ih =>
    rw [pairwise_cons] at hone
    have hrest := forall_mem_cons.1 hempty
    rw [flatMap_cons]
    rcases mem_cons.1 hb with rfl | hb
    · have hnil : buckets.flatMap g = [] :=
        flatMap_eq_nil_iff.2 fun a ha => hrest.2 a ha fun hca => hone.1 a ha ⟨hc, hca⟩
      rw [hnil, append_nil]
    · rw [hrest.1 fun hca => hone.1 b hb ⟨hca, hc⟩, ih hone.2 hrest.2 hb, nil_append]

theorem flatMap_filter_append {β γ : Type*} {buckets : List β} {g : β → List γ} {p q : β → Bool}
    (hpq : ∀ b ∈ buckets, p b = true → q b = false)
    (hempty : ∀ b ∈ buckets, p b = false → q b = false → g b = [])
    (h : buckets.Pairwise fun a b => q a = true → p b = true → g a = [] ∨ g b = []) :
    (buckets.filter p ++ buckets.filter q).flatMap g = buckets.flatMap g := by
  induction buckets with
  | nil => rfl
  | cons b buckets ih =>
    obtain ⟨hb, hrest⟩ := pairwise_cons.1 h
    have ih := ih (fun a ha => hpq a (mem_cons_of_mem _ ha))
      (fun a ha => hempty a (mem_cons_of_mem _ ha)) hrest
    rw [flatMap_append] at ih ⊢
    cases hp : p b with
    | true =>
      rw [filter_cons_of_pos hp, filter_cons_of_neg (by simp [hpq b mem_cons_self hp]),
        flatMap_cons, flatMap_cons, append_assoc, ih]
    | false =>
      rw [filter_cons_of_neg (by simp [hp])]
      cases hq : q b with
      | false =>
        rw [filter_cons_of_neg (by simp [hq]), ih, flatMap_cons,
          hempty b mem_cons_self hp hq, nil_append]
      | true =>
        rw [filter_cons_of_pos hq, flatMap_cons, flatMap_cons, ← ih]
        by_cases hg : g b = []
        · simp [hg]
        · have hnone : (buckets.filter p).flatMap g = [] := flatMap_eq_nil_iff.2 fun a ha =>
            (hb a (mem_filter.1 ha).1 hq (mem_filter.1 ha).2).resolve_left hg
          rw [hnone, nil_append, nil_append]

theorem flatMap_filter {β γ : Type*} {buckets : List β} {g : β → List γ} {p : β → Bool}
    (h : ∀ b ∈ buckets, p b = false → g b = []) :
    (buckets.filter p).flatMap g = buckets.flatMap g := by
  induction buckets with
  | nil => rfl
  | cons b buckets ih =>
    obtain ⟨hb, hrest⟩ := forall_mem_cons.1 h
    rw [flatMap_cons, ← ih hrest]
    by_cases hp : p b = true
    · rw [filter_cons_of_pos hp, flatMap_cons]
    · rw [filter_cons_of_neg hp, hb (Bool.not_eq_true _ ▸ hp), nil_append]

section Bisect

/-- Binary search for the first index whose probe is false; a probe may fail. -/
def bisect (probe : ℕ → Option Bool) : ℕ → ℕ → ℕ → Option ℕ
  | 0, left, _ => some left
  | fuel + 1, left, right =>
    if left < right then
      match probe ((left + right) / 2) with
      | none => none
      | some true => bisect probe fuel ((left + right) / 2 + 1) right
      | some false => bisect probe fuel left ((left + right) / 2)
    else some left

theorem bisect_spec {probe : ℕ → Option Bool} {q : ℕ → Bool} {n : ℕ}
    (hprobe : ∀ i, i < n → probe i = some (q i))
    (hmono : ∀ i j, i ≤ j → j < n → q j = true → q i = true) {fuel left right : ℕ}
    (hfuel : right - left ≤ fuel) (hle : left ≤ right) (hn : right ≤ n)
    (hleft : ∀ i, i < left → q i = true) (hright : ∀ i, right ≤ i → i < n → q i = false) :
    ∃ k, bisect probe fuel left right = some k ∧ k ≤ n ∧ (∀ i, i < k → q i = true) ∧
      ∀ i, k ≤ i → i < n → q i = false := by
  induction fuel generalizing left right with
  | zero =>
    obtain rfl : left = right := by omega
    exact ⟨left, rfl, hn, hleft, hright⟩
  | succ fuel ih =>
    rw [bisect]
    by_cases hlt : left < right
    · have hmid : (left + right) / 2 < n := by omega
      rw [if_pos hlt, hprobe _ hmid]
      cases hq : q ((left + right) / 2) with
      | true =>
        apply ih (by omega) (by omega) hn
        · exact fun i hi => hmono i _ (Nat.le_of_lt_succ hi) hmid hq
        · exact hright
      | false =>
        apply ih (by omega) (by omega) hmid.le hleft
        intro i hi hin
        by_contra hne
        rw [Bool.not_eq_false] at hne
        rw [hmono _ i hi hin hne] at hq
        cases hq
    · obtain rfl : left = right := by omega
      rw [if_neg hlt]
      exact ⟨left, rfl, hn, hleft, hright⟩

end Bisect

end SortedSearch
