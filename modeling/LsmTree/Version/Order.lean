import LsmTree.Compaction.Leveled
import LsmTree.Theory.SortedSearch

/-! Runs in key order. -/
namespace LsmTree

open List

variable {T K : Type*} [LinearOrder K] [TableMeta T K]

def Valid (t : T) : Prop := (keyRange t).min ≤ (keyRange t).max

def SortedRun (run : List T) : Prop :=
  run.Pairwise fun a b => (keyRange a).max < (keyRange b).min

def Apart (a b : T) : Prop := (keyRange a).overlaps (keyRange b) = false

variable {a b : T}

theorem Apart.symm (h : Apart a b) : Apart b a := by
  unfold Apart
  rwa [KeyRange.overlaps_comm]

instance : DecidableRel (Apart (T := T)) := fun _ _ => inferInstanceAs (Decidable (_ = false))

instance : Std.Symm (Apart (T := T)) := ⟨fun _ _ => Apart.symm⟩

theorem apart_iff : Apart a b ↔
    ¬ ((keyRange b).min ≤ (keyRange a).max ∧ (keyRange a).min ≤ (keyRange b).max) := by
  rw [← KeyRange.overlaps_iff, Bool.not_eq_true, Apart]

theorem Apart.of_lt (h : (keyRange a).max < (keyRange b).min) : Apart a b :=
  apart_iff.2 fun ho => absurd ho.1 (not_le.2 h)

variable {run : List T}

theorem SortedRun.apart (h : SortedRun run) : run.Pairwise Apart :=
  h.imp Apart.of_lt

theorem SortedRun.of_apart (hv : ∀ t ∈ run, Valid t) (hd : run.Pairwise Apart)
    (hs : run.Pairwise fun a b => (keyRange a).min ≤ (keyRange b).min) : SortedRun run := by
  refine (hd.and hs).imp_of_mem ?_
  intro a b _ hb h
  by_contra hle
  exact apart_iff.1 h.1 ⟨not_lt.1 hle, h.2.trans (hv b hb)⟩

variable {t : T}

theorem fitsInRun_iff :
    fitsInRun run t = true ↔ ∀ x ∈ run, Apart t x := by
  simp [fitsInRun, Apart]

theorem pushCmp_sorted (hv : ∀ x ∈ t :: run, Valid x) (hs : SortedRun run)
    (hf : ∀ x ∈ run, Apart t x) : SortedRun (pushCmp run t) := by
  have hperm := pushCmp_perm run t
  refine SortedRun.of_apart (fun x hx => hv x (hperm.mem_iff.1 hx)) ?_ ?_
  · refine (hperm.pairwise_iff Apart.symm).2 ?_
    exact pairwise_cons.2 ⟨hf, hs.apart⟩
  · have : IsTrans T fun a b => (keyRange a).min ≤ (keyRange b).min :=
      ⟨fun _ _ _ => le_trans⟩
    have : Std.Total fun a b : T => (keyRange a).min ≤ (keyRange b).min :=
      ⟨fun _ _ => le_total _ _⟩
    exact pairwise_insertionSort _ _

structure GoodRun (run : List T) : Prop where
  nonempty : run ≠ []
  valid : ∀ t ∈ run, Valid t
  sorted : SortedRun run

theorem GoodRun.singleton (h : Valid t) : GoodRun [t] :=
  ⟨cons_ne_nil _ _, by simpa using h, pairwise_singleton _ _⟩

variable {runs : List (List T)}

theorem optimizeRuns_good (h : ∀ run ∈ runs, GoodRun run) :
    ∀ run ∈ optimizeRuns runs, GoodRun run := by
  unfold optimizeRuns
  split
  · exact h
  · have hv : ∀ t ∈ runs.reverse.flatMap List.reverse, Valid t := by
      intro t ht
      obtain ⟨run, hrun, htr⟩ := mem_flatten.1 ((flatMap_reverse_perm runs).mem_iff.1 ht)
      exact (h run hrun).valid t htr
    refine FirstFit.foldl_place_forall (fun t ht => GoodRun.singleton (hv t ht)) ?_ (by simp)
    intro t ht run hrun hfit
    have hvalid : ∀ x ∈ t :: run, Valid x := forall_mem_cons.2 ⟨hv t ht, hrun.valid⟩
    have hperm := pushCmp_perm run t
    refine ⟨?_, fun x hx => hvalid x (hperm.mem_iff.1 hx),
      pushCmp_sorted hvalid hrun.sorted (fitsInRun_iff.1 hfit)⟩
    intro hnil
    rw [hnil] at hperm
    exact cons_ne_nil _ _ hperm.nil_eq.symm

theorem optimizeRuns_single (h : runs.flatten.Pairwise Apart) :
    (optimizeRuns runs).length ≤ 1 := by
  unfold optimizeRuns
  split
  case isTrue hlen => exact hlen
  case isFalse =>
    refine FirstFit.foldl_place_length (r := Apart) pushCmp_perm (fun _ _ => Apart.symm)
      (fun run t hd => fitsInRun_iff.2 hd) (by simp) ?_
    rw [flatten_nil, nil_append]
    exact ((flatMap_reverse_perm runs).pairwise_iff Apart.symm).2 h

section Search

variable {run : List T} {r : KeyRange K} {t : T}

theorem SortedRun.lt_of_valid (hs : SortedRun run) (hv : ∀ t ∈ run, Valid t) :
    run.Pairwise fun a b => (keyRange a).max < (keyRange b).max ∧
      (keyRange a).min < (keyRange b).min := by
  refine hs.imp_of_mem ?_
  intro a b ha hb h
  exact ⟨h.trans_le (hv b hb), (hv a ha).trans_lt h⟩

theorem mem_getOverlapping (hs : SortedRun run) (hv : ∀ t ∈ run, Valid t) :
    t ∈ getOverlapping run r ↔ t ∈ run ∧ (keyRange t).overlaps r = true := by
  induction run with
  | nil => simp [getOverlapping]
  | cons x run ih =>
    have hlt := hs.lt_of_valid hv
    have hv' : ∀ t ∈ run, Valid t := fun t ht => hv t (mem_cons_of_mem _ ht)
    unfold SortedRun at hs
    rw [pairwise_cons] at hs hlt
    by_cases hx : (keyRange x).max < r.min
    · have hskip : getOverlapping (x :: run) r = getOverlapping run r := by
        simp [getOverlapping, hx]
      have hno : (keyRange x).overlaps r = false := by
        rw [← Bool.not_eq_true, KeyRange.overlaps_iff]
        exact fun h => absurd h.1 (not_le.2 hx)
      rw [hskip, ih hs.2 hv', mem_cons]
      constructor
      · exact fun h => ⟨Or.inr h.1, h.2⟩
      · rintro ⟨rfl | h, ho⟩
        · rw [hno] at ho
          cases ho
        · exact ⟨h, ho⟩
    · -- nothing is skipped here or later, so only the upper cut counts
      have hge : ∀ y ∈ x :: run, r.min ≤ (keyRange y).max := by
        intro y hy
        rcases mem_cons.1 hy with rfl | hy
        · exact not_lt.1 hx
        · exact (not_lt.1 hx).trans (hlt.1 y hy).1.le
      have hmin : (x :: run).Pairwise fun a b => (keyRange a).min < (keyRange b).min :=
        pairwise_cons.2 ⟨fun y hy => (hlt.1 y hy).2, hlt.2.imp And.right⟩
      have htake : getOverlapping (x :: run) r =
          (x :: run).takeWhile fun t => decide ((keyRange t).min ≤ r.max) := by
        simp [getOverlapping, hx]
      rw [htake, SortedSearch.mem_takeWhile_le (hmin.imp le_of_lt), KeyRange.overlaps_iff]
      exact and_congr_right fun h => (and_iff_right (hge t h)).symm

theorem SortedRun.min_le {x : T} (hs : SortedRun (x :: run)) (hv : ∀ t ∈ x :: run, Valid t)
    (ht : t ∈ x :: run) : (keyRange x).min ≤ (keyRange t).min := by
  rcases mem_cons.1 ht with rfl | ht
  · exact le_rfl
  · have hx := hv x mem_cons_self
    exact hx.trans ((pairwise_cons.1 hs).1 t ht).le

theorem SortedRun.le_max {x : T} (hs : SortedRun (run ++ [x])) (hv : ∀ t ∈ run ++ [x], Valid t)
    (ht : t ∈ run ++ [x]) : (keyRange t).max ≤ (keyRange x).max := by
  rcases mem_append.1 ht with ht | ht
  · have hx := hv x (by simp)
    exact ((pairwise_append.1 hs).2.2 t ht x (by simp)).le.trans hx
  · rw [mem_singleton.1 ht]

theorem getContained_sublist : (getContained run r).Sublist run := by
  refine (List.rdropWhile_prefix _ _).sublist.trans ((dropWhile_sublist _).trans ?_)
  exact (takeWhile_sublist _).trans (dropWhile_sublist _)

theorem getContained_contains (hs : SortedRun run) (hv : ∀ t ∈ run, Valid t)
    (ht : t ∈ getContained run r) :
    r.min ≤ (keyRange t).min ∧ (keyRange t).max ≤ r.max := by
  have hsub : (getContained run r).Sublist run := getContained_sublist
  have hs' : SortedRun (getContained run r) := List.Pairwise.sublist hsub hs
  have hv' : ∀ t ∈ getContained run r, Valid t := fun t ht => hv t (hsub.subset ht)
  have hne : getContained run r ≠ [] := ne_nil_of_mem ht
  constructor
  · have hhead : r.containsRange (keyRange ((getContained run r).head hne)) = true := by
      have hpre : getContained run r <+: _ := List.rdropWhile_prefix _ _
      have hne' := hpre.ne_nil hne
      rw [hpre.head hne]
      simpa using head_dropWhile_not
        (fun t => !r.containsRange (keyRange t)) hne'
    obtain ⟨x, rest, hx⟩ := exists_cons_of_ne_nil hne
    simp only [hx, head_cons] at hhead hs' hv' ht
    have hle := (decide_eq_true_iff.1 hhead).1
    exact hle.trans (hs'.min_le hv' ht)
  · have hlast : r.containsRange (keyRange ((getContained run r).getLast hne)) = true := by
      simpa [getContained] using
        rdropWhile_last_not (fun t => !r.containsRange (keyRange t)) _ hne
    rw [← dropLast_append_getLast hne] at hs' hv' ht
    have hle := (decide_eq_true_iff.1 hlast).2
    exact (hs'.le_max hv' ht).trans hle

theorem aggregateRunKeyRange_contains (hs : SortedRun run) (hv : ∀ t ∈ run, Valid t)
    (hr : aggregateRunKeyRange run = some r) (ht : t ∈ run) :
    r.min ≤ (keyRange t).min ∧ (keyRange t).max ≤ r.max := by
  cases run with
  | nil => cases ht
  | cons x run =>
    cases hr
    refine ⟨hs.min_le hv ht, ?_⟩
    rw [← dropLast_append_getLast (cons_ne_nil x run)] at hs hv ht
    exact hs.le_max hv ht

theorem getForKey_eq_some {k : K} (hs : SortedRun run) (hv : ∀ t ∈ run, Valid t) :
    getForKey run k = some t ↔ t ∈ run ∧ (keyRange t).containsKey k = true := by
  induction run with
  | nil => simp [getForKey]
  | cons x run ih =>
    have hs' := pairwise_cons.1 hs
    have hv' := forall_mem_cons.1 hv
    have hrest := ih hs'.2 hv'.2
    simp only [KeyRange.containsKey, decide_eq_true_eq] at hrest ⊢
    by_cases hx : (keyRange x).max < k
    · have hskip : getForKey (x :: run) k = getForKey run k := by
        simp [getForKey, hx]
      rw [hskip, hrest, mem_cons]
      constructor
      · exact fun h => ⟨Or.inr h.1, h.2⟩
      · rintro ⟨rfl | h, hk⟩
        · exact absurd hk.2 (not_le.2 hx)
        · exact ⟨h, hk⟩
    · have hstop : getForKey (x :: run) k =
          (some x).filter fun t => decide ((keyRange t).min ≤ k) := by
        simp [getForKey, hx]
      rw [hstop, Option.filter_eq_some_iff, decide_eq_true_eq, Option.some.injEq, mem_cons]
      constructor
      · rintro ⟨rfl, hk⟩
        exact ⟨Or.inl rfl, hk, not_lt.1 hx⟩
      · rintro ⟨rfl | h, hk⟩
        · exact ⟨rfl, hk.1⟩
        · -- a later table starts above the end of `x`, which is not below the key
          exact absurd ((hs'.1 t h).trans_le hk.1) hx

omit [LinearOrder K] in
theorem aggregateRunKeyRange_isSome (h : run ≠ []) : ∃ r, aggregateRunKeyRange run = some r := by
  cases run with
  | nil => exact absurd rfl h
  | cons x run => exact ⟨_, rfl⟩

end Search

section Hull

variable [RawKey K]

omit [RawKey K] in
theorem join_contains (a b : KeyRange K) :
    ((a.join b).min ≤ a.min ∧ a.max ≤ (a.join b).max) ∧
      (a.join b).min ≤ b.min ∧ b.max ≤ (a.join b).max := by
  unfold KeyRange.join
  split_ifs <;> refine ⟨⟨?_, ?_⟩, ?_, ?_⟩ <;> dsimp only <;> order

omit [RawKey K] in
theorem foldl_join_contains {rs : List (KeyRange K)} {acc r : KeyRange K} (h : r ∈ acc :: rs) :
    (rs.foldl KeyRange.join acc).min ≤ r.min ∧ r.max ≤ (rs.foldl KeyRange.join acc).max := by
  induction rs generalizing acc r with
  | nil =>
    rw [mem_singleton.1 h]
    exact ⟨le_rfl, le_rfl⟩
  | cons b rs ih =>
    obtain ⟨hacc, hb⟩ := join_contains acc b
    have hnew := @ih (acc.join b) _ mem_cons_self
    rcases mem_cons.1 h with rfl | h
    · exact ⟨hnew.1.trans hacc.1, hacc.2.trans hnew.2⟩
    · rcases mem_cons.1 h with rfl | h
      · exact ⟨hnew.1.trans hb.1, hb.2.trans hnew.2⟩
      · exact ih (mem_cons_of_mem _ h)

theorem levelKeyRange_contains {runs : List (List T)} (h : ∀ run ∈ runs, GoodRun run) {t : T}
    (ht : t ∈ runs.flatten) :
    (levelKeyRange runs).min ≤ (keyRange t).min ∧ (keyRange t).max ≤ (levelKeyRange runs).max := by
  obtain ⟨run, hrun, htr⟩ := mem_flatten.1 ht
  have hg := h run hrun
  obtain ⟨r, hr⟩ := aggregateRunKeyRange_isSome hg.nonempty
  have hin := aggregateRunKeyRange_contains hg.sorted hg.valid hr htr
  have hmem : r ∈ runs.filterMap aggregateRunKeyRange := mem_filterMap.2 ⟨run, hrun, hr⟩
  unfold levelKeyRange
  cases hl : runs.filterMap (aggregateRunKeyRange (T := T) (K := K)) with
  | nil =>
    rw [hl] at hmem
    cases hmem
  | cons r' rs =>
    rw [hl] at hmem
    have hfold := foldl_join_contains hmem
    exact ⟨hfold.1.trans hin.1, hin.2.trans hfold.2⟩

end Hull

/-- Tables of a level below L0 are pairwise disjoint, and every run is in key order. -/
def Version.LevelsInOrder (v : Version T) : Prop :=
  (∀ i, 1 ≤ i → (v.level i).flatten.Pairwise Apart) ∧ ∀ i, ∀ run ∈ v.level i, SortedRun run

instance (run : List T) : Decidable (SortedRun run) := inferInstanceAs (Decidable (run.Pairwise _))

instance (a b : T) : Decidable (Apart a b) := inferInstanceAs (Decidable (_ = false))

theorem Version.levelsInOrder_iff {v : Version T} : v.LevelsInOrder ↔
    (∀ i < v.levels.length, 1 ≤ i → (v.level i).flatten.Pairwise Apart) ∧
      ∀ i < v.levels.length, ∀ run ∈ v.level i, SortedRun run := by
  have hnil : ∀ i, ¬ i < v.levels.length → v.level i = [] := fun i hi => by
    simp [Version.level, not_lt.1 hi]
  refine ⟨fun h => ⟨fun i _ => h.1 i, fun i _ => h.2 i⟩, fun h => ⟨fun i hi => ?_, fun i => ?_⟩⟩
  · by_cases hlt : i < v.levels.length
    · exact h.1 i hlt hi
    · simp [hnil i hlt]
  · by_cases hlt : i < v.levels.length
    · exact h.2 i hlt
    · simp [hnil i hlt]

instance (v : Version T) : Decidable v.LevelsInOrder := decidable_of_iff' _ v.levelsInOrder_iff

end LsmTree
