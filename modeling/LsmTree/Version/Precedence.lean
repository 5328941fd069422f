import LsmTree.Version.Order
import LsmTree.Table.MultiWriter

/-! What re-packing a level does to the age of its tables. -/
namespace LsmTree

variable {T K : Type*} [LinearOrder K] [TableMeta T K] {runs : List (List T)}

def AscendingRun (run : List T) : Prop :=
  run.Pairwise fun a b => (keyRange a).min ≤ (keyRange b).min

structure Optimized (runs out : List (List T)) : Prop where
  same : out.flatten.Perm runs.flatten
  ascending : ∀ run ∈ out, AscendingRun run
  disjoint : ∀ run ∈ out, run.Pairwise Apart
  precedence : ∀ a b, ¬ Apart a b → FirstFit.Above runs a b → FirstFit.Above out a b

theorem pushCmp_ascending (run : List T) (t : T) : AscendingRun (pushCmp run t) := by
  have : IsTrans T fun a b => (keyRange a).min ≤ (keyRange b).min := ⟨fun _ _ _ => le_trans⟩
  have : Std.Total fun a b : T => (keyRange a).min ≤ (keyRange b).min :=
    ⟨fun _ _ => le_total _ _⟩
  exact List.pairwise_insertionSort _ _

theorem fitsInRun_iff_conflict (run : List T) (t : T) :
    fitsInRun run t = true ↔ ∀ x ∈ run, ¬ ¬ Apart t x := by
  simp only [not_not, fitsInRun_iff]

theorem optimizeRuns_of_lt (h : 1 < runs.length) :
    optimizeRuns runs = runs.flatten.reverse.foldl (FirstFit.place fitsInRun pushCmp) [] := by
  rw [optimizeRuns, if_neg (Nat.not_le.2 h), List.flatMap, List.map_reverse, ← List.reverse_flatten]

theorem optimizeRuns_ascending (h : 1 < runs.length) :
    ∀ run ∈ optimizeRuns runs, AscendingRun run := by
  rw [optimizeRuns_of_lt h]
  refine FirstFit.foldl_place_forall (fun _ _ => List.pairwise_singleton _ _) ?_ (by simp)
  exact fun t _ run _ _ => pushCmp_ascending run t

theorem optimizeRuns_disjoint (hruns : ∀ run ∈ runs, run.Pairwise Apart) :
    ∀ run ∈ optimizeRuns runs, run.Pairwise Apart := by
  by_cases h : 1 < runs.length
  · rw [optimizeRuns_of_lt h]
    refine FirstFit.foldl_place_forall (fun _ _ => List.pairwise_singleton _ _) ?_ (by simp)
    intro t _ run hrun hfit
    refine ((pushCmp_perm run t).pairwise_iff Apart.symm).2 ?_
    exact List.pairwise_cons.2 ⟨fitsInRun_iff.1 hfit, hrun⟩
  · rw [optimizeRuns, if_pos (Nat.not_lt.1 h)]
    exact hruns

theorem above_iff_packed_later {a b : T} (hruns : ∀ run ∈ runs, run.Pairwise Apart)
    (hc : ¬ Apart a b) :
    FirstFit.Above runs a b ↔ FirstFit.Earlier [] runs.flatten.reverse b a := by
  have hsub : FirstFit.Earlier [] runs.flatten.reverse b a ↔ [a, b].Sublist runs.flatten := by
    simp [FirstFit.Earlier, List.sublist_reverse_iff]
  rw [hsub]
  refine ⟨FirstFit.Above.sublist, fun h => FirstFit.above_of_sublist h fun run hrun hin => ?_⟩
  exact hc (List.pairwise_iff_forall_sublist.1 (hruns run hrun) hin)

theorem optimizeRuns_precedence_iff (hnd : runs.flatten.Nodup)
    (hruns : ∀ run ∈ runs, run.Pairwise Apart) (h : 1 < runs.length) :
    (∀ a b, ¬ Apart a b → FirstFit.Above runs a b → FirstFit.Above (optimizeRuns runs) a b) ↔
      FirstFit.AllSettle fitsInRun pushCmp [] runs.flatten.reverse := by
  have hpacked := optimizeRuns_of_lt h
  constructor
  · intro hkeep
    by_contra hsettle
    obtain ⟨a, b, hab, hc, hbelow⟩ :=
      FirstFit.exists_foldl_below pushCmp_perm fitsInRun_iff_conflict hsettle
    have habove := hkeep a b hc ((above_iff_packed_later hruns hc).2 hab)
    rw [← hpacked] at hbelow
    exact habove.asymm ((optimizeRuns_perm runs).nodup_iff.2 hnd) hbelow
  · intro hsettle a b hc habove
    rw [hpacked]
    exact FirstFit.foldl_above pushCmp_perm fitsInRun_iff_conflict hsettle
      ((above_iff_packed_later hruns hc).1 habove) hc

theorem optimizeRuns_optimized_iff (hnd : runs.flatten.Nodup)
    (hruns : ∀ run ∈ runs, run.Pairwise Apart) :
    Optimized runs (optimizeRuns runs) ↔
      (runs.length ≤ 1 → ∀ run ∈ runs, AscendingRun run) ∧
        (1 < runs.length → FirstFit.AllSettle fitsInRun pushCmp [] runs.flatten.reverse) := by
  constructor
  · intro hopt
    refine ⟨fun h run hrun => hopt.ascending run ?_, fun h => ?_⟩
    · rwa [optimizeRuns, if_pos h]
    · exact (optimizeRuns_precedence_iff hnd hruns h).1 hopt.precedence
  · rintro ⟨hsingle, hseveral⟩
    refine ⟨optimizeRuns_perm runs, ?_, optimizeRuns_disjoint hruns, ?_⟩
    · by_cases h : 1 < runs.length
      · exact optimizeRuns_ascending h
      · rw [optimizeRuns, if_pos (Nat.not_lt.1 h)]
        exact hsingle (Nat.not_lt.1 h)
    · by_cases h : 1 < runs.length
      · exact (optimizeRuns_precedence_iff hnd hruns h).2 (hseveral h)
      · rw [optimizeRuns, if_pos (Nat.not_lt.1 h)]
        exact fun _ _ _ habove => habove

def flushedTables : List (Table ℕ ℕ) :=
  [⟨2, ⟨4, 7⟩, [], []⟩, ⟨1, ⟨2, 5⟩, [], []⟩, ⟨0, ⟨0, 2⟩, [], []⟩]

theorem flushedTables_settle :
    let runs := (flushedTables.drop 1).map ([·])
    (runs.flatten.Nodup ∧ ∀ run ∈ runs, run.Pairwise Apart) ∧ Optimized runs (optimizeRuns runs) := by
  refine ⟨by decide, (optimizeRuns_optimized_iff (by decide) (by decide)).2 ⟨?_, fun _ => ?_⟩⟩
  · intro h
    exact absurd h (by decide)
  · refine ⟨List.Pairwise.nil, ?_, trivial⟩
    exact List.pairwise_singleton _ _

/-- The third flush joins the run of the first one, below the second that it overlaps. -/
theorem newest_flush_sinks :
    let runs := flushedTables.map ([·])
    runs.flatten.Nodup ∧ (∀ run ∈ runs, run.Pairwise Apart) ∧
      ((((⟨[[]]⟩ : Version (Table ℕ ℕ)).withNewL0Run (flushedTables.drop 2)).withNewL0Run
        ((flushedTables.drop 1).take 1)).withNewL0Run (flushedTables.take 1)).levels =
          [optimizeRuns runs] ∧
      ¬ Optimized runs (optimizeRuns runs) := by
  refine ⟨by decide, by decide, by decide, fun hopt => ?_⟩
  have habove : FirstFit.Above (flushedTables.map ([·])) ⟨2, ⟨4, 7⟩, [], []⟩ ⟨1, ⟨2, 5⟩, [], []⟩ :=
    ⟨[[⟨2, ⟨4, 7⟩, [], []⟩]], [[⟨1, ⟨2, 5⟩, [], []⟩], [⟨0, ⟨0, 2⟩, [], []⟩]], rfl, by decide, by decide⟩
  have hsub := (hopt.precedence _ _ (by decide) habove).sublist
  revert hsub
  decide

end LsmTree
