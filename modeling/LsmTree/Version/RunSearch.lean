import LsmTree.Compaction.DropRange

/-! What the searches in a run find. -/
namespace LsmTree

open List

variable {T K : Type*} [LinearOrder K] [TableMeta T K] {run : List T} {t : T} {b : OwnedBounds K}

theorem lt_runPartitionPoint {p : T → Bool} (h : run.Pairwise fun a b => p b = true → p a = true)
    {i : ℕ} (hi : run[i]? = some t) : i < runPartitionPoint run p ↔ p t = true := by
  obtain ⟨hlt, rfl⟩ := List.getElem?_eq_some_iff.1 hi
  constructor
  · intro hpoint
    simpa using not_of_lt_findIdx hpoint
  · intro hp
    by_contra hge
    have hpoint : runPartitionPoint run p < run.length := (not_lt.1 hge).trans_lt hlt
    have hnot : p run[runPartitionPoint run p] = false :=
      (Bool.not_eq_true' _).mp (findIdx_getElem (w := hpoint))
    have hall : p run[runPartitionPoint run p] = true := by
      rcases (not_lt.1 hge).eq_or_lt with heq | hlt'
      · simpa only [heq] using hp
      · exact pairwise_iff_getElem.1 h _ i hpoint hlt hlt' hp
    rw [hnot] at hall
    cases hall

namespace OwnedBounds

def Reaches (b : OwnedBounds K) (t : T) : Prop := b.endsBefore t = false ∧ b.startsWithin t = true

def Meets (b : OwnedBounds K) (t : T) : Prop :=
  ∃ k, (keyRange t).min ≤ k ∧ k ≤ (keyRange t).max ∧ b.Holds k

theorem reaches_iff_meets (hv : Valid t) (hb : ∃ k, b.Holds k) : b.Reaches t ↔ b.Meets t := by
  rcases b with ⟨start, stop⟩
  constructor
  · rintro ⟨hstart, hstop⟩
    -- a key of the range, moved into the table's key range
    obtain ⟨k, hk⟩ := hb
    refine ⟨max (keyRange t).min (min k (keyRange t).max), le_max_left _ _,
      max_le hv (min_le_right _ _), ?_⟩
    cases start <;> cases stop <;> simp_all [endsBefore, startsWithin, Holds, Valid]
  · rintro ⟨k, hmin, hmax, hk⟩
    cases start <;> cases stop <;> simp_all [Reaches, endsBefore, startsWithin, Holds] <;> grind

theorem endsBefore_antitone (hs : SortedRun run) (hv : ∀ t ∈ run, Valid t) :
    run.Pairwise fun x y => b.endsBefore y = true → b.endsBefore x = true := by
  refine (hs.lt_of_valid hv).imp fun hlt hy => ?_
  rw [endsBefore] at hy ⊢
  split <;> simp_all <;> order

theorem reaches_iff_window (hs : SortedRun run) (hv : ∀ t ∈ run, Valid t) {lo n i : ℕ}
    (hlo : lo = runPartitionPoint run b.endsBefore)
    (hn : n = runPartitionPoint (run.drop lo) b.startsWithin) (hi : run[i]? = some t) :
    b.Reaches t ↔ lo ≤ i ∧ i < lo + n := by
  have hends : i < lo ↔ b.endsBefore t = true :=
    hlo ▸ lt_runPartitionPoint (endsBefore_antitone hs hv) hi
  rw [Reaches, ← Bool.not_eq_true, ← hends, not_lt]
  refine and_congr_right fun hle => ?_
  have hdrop : (run.drop lo)[i - lo]? = some t := by
    rw [getElem?_drop, Nat.add_sub_cancel' hle, hi]
  have hsorted : (run.drop lo).Pairwise fun x y => b.startsWithin y = true → b.startsWithin x = true :=
    ((hs.lt_of_valid hv).sublist (drop_sublist lo run)).imp fun hlt => startsWithin_of_le hlt.2.le
  rw [← lt_runPartitionPoint hsorted hdrop, ← hn]
  omega

theorem rangeOverlapIndexes_some (hs : SortedRun run) (hv : ∀ t ∈ run, Valid t) {lo hi : ℕ} :
    b.rangeOverlapIndexes run = some (lo, hi) ↔ lo ≤ hi ∧ hi < run.length ∧
      ∀ i t, run[i]? = some t → (b.Reaches t ↔ lo ≤ i ∧ i ≤ hi) := by
  obtain ⟨lo', hlo⟩ : ∃ lo', lo' = runPartitionPoint run b.endsBefore := ⟨_, rfl⟩
  obtain ⟨n, hn⟩ : ∃ n, n = runPartitionPoint (run.drop lo') b.startsWithin := ⟨_, rfl⟩
  have hwindow : ∀ i t, run[i]? = some t → (b.Reaches t ↔ lo' ≤ i ∧ i < lo' + n) :=
    fun i t => reaches_iff_window hs hv hlo hn
  have hle : n ≤ run.length - lo' := by
    rw [hn, ← length_drop]
    exact findIdx_le_length
  rw [rangeOverlapIndexes_eq b run hlo hn]
  constructor
  · intro h
    split at h
    · cases h
      refine ⟨by omega, by omega, fun i t hi => (hwindow i t hi).trans ?_⟩
      omega
    · cases h
  · rintro ⟨hlohi, hhi, h⟩
    have hsame : ∀ i, i < run.length → (lo' ≤ i ∧ i < lo' + n ↔ lo ≤ i ∧ i ≤ hi) := fun i hi =>
      (hwindow i _ (getElem?_eq_getElem hi)).symm.trans (h i _ (getElem?_eq_getElem hi))
    have hfirst := hsame lo (by omega)
    have hlast := hsame hi hhi
    have hfirst' := hsame lo' (by omega)
    have hlast' := hsame (lo' + n - 1) (by omega)
    rw [if_pos (by omega)]
    congr 2 <;> omega

theorem rangeOverlapIndexes_none (hs : SortedRun run) (hv : ∀ t ∈ run, Valid t) :
    b.rangeOverlapIndexes run = none ↔ ∀ t ∈ run, ¬b.Reaches t := by
  constructor
  · intro hnone t ht hreach
    obtain ⟨i, hi⟩ := mem_iff_getElem?.1 ht
    have hwindow := (reaches_iff_window hs hv rfl rfl hi).1 hreach
    rw [rangeOverlapIndexes_eq b run rfl rfl, if_pos (by omega)] at hnone
    cases hnone
  · intro hall
    cases hfound : b.rangeOverlapIndexes run with
    | none => rfl
    | some found =>
      obtain ⟨hle, hlt, hiff⟩ := (rangeOverlapIndexes_some hs hv).1 hfound
      obtain ⟨t, ht⟩ : ∃ t, run[found.1]? = some t :=
        ⟨_, getElem?_eq_getElem (hle.trans_lt hlt)⟩
      exact absurd ((hiff _ _ ht).2 ⟨le_rfl, hle⟩) (hall t (mem_of_getElem? ht))

end OwnedBounds

theorem filter_dropWhile {α : Type*} {p q : α → Bool} {l : List α}
    (h : ∀ a ∈ l, q a = true → p a = false) : (l.dropWhile q).filter p = l.filter p := by
  conv_rhs => rw [← takeWhile_append_dropWhile (p := q) (l := l), filter_append]
  have hnil : (l.takeWhile q).filter p = [] := by
    refine filter_eq_nil_iff.2 fun a ha => ?_
    simp [h a ((takeWhile_sublist q).subset ha) (mem_takeWhile_imp ha)]
  rw [hnil, nil_append]

theorem getContained_eq (hs : SortedRun run) (hv : ∀ t ∈ run, Valid t) (r : KeyRange K) :
    getContained run r = run.filter fun t => r.containsRange (keyRange t) := by
  have hkept : (getContained run r).filter (fun t => r.containsRange (keyRange t)) =
      getContained run r :=
    filter_eq_self.2 fun t ht => decide_eq_true (getContained_contains hs hv ht)
  have hsorted := (hs.lt_of_valid hv).sublist
    (dropWhile_sublist fun t => decide ((keyRange t).max < r.min))
  rw [← hkept, getContained, List.rdropWhile, filter_reverse, filter_dropWhile (by simp),
    filter_reverse, reverse_reverse, filter_dropWhile (by simp), getOverlapping,
    SortedSearch.takeWhile_eq_filter, filter_filter]
  · rw [← filter_dropWhile (q := fun t => decide ((keyRange t).max < r.min)) (l := run)]
    · apply filter_congr
      intro t ht
      have hvalid : (keyRange t).min ≤ (keyRange t).max :=
        hv t ((dropWhile_sublist _).subset ht)
      rw [Bool.and_eq_left_iff_imp, decide_eq_true_eq]
      exact fun hc => hvalid.trans (of_decide_eq_true hc).2
    · intro t ht hbefore
      have hvalid : (keyRange t).min ≤ (keyRange t).max := hv t ht
      refine decide_eq_false fun hc => ?_
      exact absurd (hc.1.trans hvalid) (not_le.2 (of_decide_eq_true hbefore))
  · exact hsorted.imp fun hlt hy => decide_eq_true (hlt.2.le.trans (of_decide_eq_true hy))

/-- The searches in a sorted run of disjoint tables. The indexes name the tables that reach into
the range; if the range has a key, these are the tables that share one with it. -/
theorem run_searches (hs : SortedRun run) (hv : ∀ t ∈ run, Valid t) :
    (∀ b : OwnedBounds K,
      (∀ lo hi, b.rangeOverlapIndexes run = some (lo, hi) ↔ lo ≤ hi ∧ hi < run.length ∧
        ∀ i t, run[i]? = some t → (b.Reaches t ↔ lo ≤ i ∧ i ≤ hi)) ∧
      (b.rangeOverlapIndexes run = none ↔ ∀ t ∈ run, ¬b.Reaches t) ∧
      ((∃ k, b.Holds k) → ∀ t ∈ run, b.Reaches t ↔ b.Meets t)) ∧
    (∀ r : KeyRange K, getContained run r =
      run.filter fun t => decide (r.min ≤ (keyRange t).min ∧ (keyRange t).max ≤ r.max)) ∧
    ∀ k : K, (∀ t, getForKey run k = some t ↔ t ∈ run ∧ (keyRange t).min ≤ k ∧
        k ≤ (keyRange t).max) ∧
      (getForKey run k = none ↔ ∀ t ∈ run, ¬((keyRange t).min ≤ k ∧ k ≤ (keyRange t).max)) := by
  refine ⟨fun b => ⟨fun lo hi => OwnedBounds.rangeOverlapIndexes_some hs hv,
    OwnedBounds.rangeOverlapIndexes_none hs hv,
    fun hb t ht => OwnedBounds.reaches_iff_meets (hv t ht) hb⟩, getContained_eq hs hv, fun k => ?_⟩
  have hfound : ∀ t, getForKey run k = some t ↔
      t ∈ run ∧ (keyRange t).min ≤ k ∧ k ≤ (keyRange t).max := by
    intro t
    rw [getForKey_eq_some hs hv, KeyRange.containsKey, decide_eq_true_eq]
  refine ⟨hfound, ?_⟩
  rw [Option.eq_none_iff_forall_ne_some]
  constructor
  · exact fun hnone t ht hk => hnone t ((hfound t).2 ⟨ht, hk⟩)
  · exact fun hall t ht => hall t ((hfound t).1 ht).1 ((hfound t).1 ht).2

def threeTables : List (Table ℕ ℕ) :=
  [⟨0, ⟨1, 3⟩, [⟨1, 0, .value, 0⟩, ⟨3, 0, .value, 0⟩], []⟩,
    ⟨1, ⟨5, 7⟩, [⟨5, 0, .value, 0⟩, ⟨7, 0, .value, 0⟩], []⟩,
    ⟨2, ⟨9, 12⟩, [⟨9, 0, .value, 0⟩, ⟨12, 0, .value, 0⟩], []⟩]

theorem threeTables_searches : SortedRun threeTables ∧
    (⟨.included 2, .included 6⟩ : OwnedBounds ℕ).rangeOverlapIndexes threeTables = some (0, 1) ∧
      (⟨.excluded 3, .excluded 5⟩ : OwnedBounds ℕ).rangeOverlapIndexes threeTables = none ∧
      getContained threeTables ⟨4, 12⟩ = threeTables.drop 1 ∧ getForKey threeTables 4 = none ∧
      ∃ t ∈ threeTables, t.id = 2 ∧ getForKey threeTables 10 = some t := by
  have hs : SortedRun threeTables := by
    unfold SortedRun
    decide
  obtain ⟨hindexes, hcontained, hkey⟩ := run_searches hs (by unfold Valid; decide)
  have hwindow : ∀ i t, threeTables[i]? = some t →
      ((⟨.included 2, .included 6⟩ : OwnedBounds ℕ).Reaches t ↔ 0 ≤ i ∧ i ≤ 1) := by
    rintro (_ | _ | _ | i) t ht <;> cases ht <;> simp [OwnedBounds.Reaches] <;> decide
  refine ⟨hs, ((hindexes _).1 0 1).2 ⟨by decide, by decide, hwindow⟩,
    (hindexes _).2.1.2 (by unfold OwnedBounds.Reaches; decide), (hcontained _).trans (by decide),
    (hkey 4).2.2 (by decide), ?_⟩
  exact ⟨⟨2, ⟨9, 12⟩, [⟨9, 0, .value, 0⟩, ⟨12, 0, .value, 0⟩], []⟩, by decide, rfl,
    ((hkey 10).1 _).2 (by decide)⟩

/-- Two excluded bounds at one key admit no key, yet the table around the key is found. -/
theorem empty_range_finds_table : SortedRun threeTables ∧
    (⟨.excluded 6, .excluded 6⟩ : OwnedBounds ℕ).rangeOverlapIndexes threeTables = some (1, 1) ∧
      ¬∃ t ∈ threeTables, (⟨.excluded 6, .excluded 6⟩ : OwnedBounds ℕ).Meets t := by
  refine ⟨by unfold SortedRun; decide, by decide, ?_⟩
  rintro ⟨t, -, k, -, -, hlo, hhi⟩
  exact lt_asymm hlo hhi

end LsmTree
