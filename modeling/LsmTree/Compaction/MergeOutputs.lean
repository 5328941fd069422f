import LsmTree.Compaction.LeveledChoice
import LsmTree.Compaction.Worker
import LsmTree.Table.WriterOrder
import LsmTree.Theory.Pointwise

/-! The outputs of a merge compaction over a version in order: whatever way the work is split
over key sub-ranges, they follow each other and lie in the hull of the inputs. -/
namespace LsmTree

open List

variable {K V : Type*} [LinearOrder K]

theorem mergeAll_keySorted {readers : List (List (InternalValue K V))}
    (h : ∀ r ∈ readers, KeySorted r) : KeySorted (KWayMerge.mergeAll InternalValue.le readers) :=
  KWayMerge.mergeAll_pairwise (r := fun a b : InternalValue K V => a.userKey ≤ b.userKey)
    (fun _ _ _ => le_trans) (fun _ _ => InternalValue.le_key.1) (fun _ _ => InternalValue.le_key.2)
    h

section ZeroSeqnos

variable {enabled : Bool} {watermark : ℕ} {rts : List (RangeTombstone K)}
  {items : List (InternalValue K V)}

theorem zeroSeqnos_keys :
    (zeroSeqnos enabled watermark rts items).map (·.userKey) = items.map (·.userKey) := by
  unfold zeroSeqnos
  split
  · rw [map_map]
    refine map_congr_left fun e _ => ?_
    simp only [Function.comp_apply]
    split <;> rfl
  · rfl

theorem keySorted_iff_keys {items : List (InternalValue K V)} :
    KeySorted items ↔ (items.map (·.userKey)).Pairwise (· ≤ ·) := pairwise_map.symm

end ZeroSeqnos

def KeyInHull (inputs : List (Table K V)) (k : K) : Prop :=
  (∃ a ∈ inputs, a.keyRange.min ≤ k) ∧ ∃ b ∈ inputs, k ≤ b.keyRange.max

theorem KeyInHull.mono {inputs inputs' : List (Table K V)} {k : K} (h : KeyInHull inputs k)
    (hsub : ∀ t ∈ inputs, t ∈ inputs') : KeyInHull inputs' k := by
  obtain ⟨⟨a, ha, hmin⟩, b, hb, hmax⟩ := h
  exact ⟨⟨a, hsub a ha, hmin⟩, b, hsub b hb, hmax⟩

theorem SortedRun.getElem_le {run : List (Table K V)} {a t : Table K V} {i j : ℕ} (hs : SortedRun run)
    (hv : ∀ t ∈ run, Valid t) (hij : i ≤ j) (ha : run[i]? = some a) (ht : run[j]? = some t) :
    a.keyRange.min ≤ t.keyRange.min ∧ a.keyRange.max ≤ t.keyRange.max := by
  obtain ⟨hi, rfl⟩ := List.getElem?_eq_some_iff.1 ha
  obtain ⟨hj, rfl⟩ := List.getElem?_eq_some_iff.1 ht
  rcases Nat.eq_or_lt_of_le hij with rfl | hlt
  · exact ⟨le_rfl, le_rfl⟩
  · have := pairwise_iff_getElem.1 (hs.lt_of_valid hv) i j hi hj hlt
    exact ⟨this.2.le, this.1.le⟩

namespace CompactionPayload

variable {p : CompactionPayload K V} {v : Version (Table K V)}
  {readers : List (List (InternalValue K V))}

theorem output_keySorted (h : ∀ r ∈ readers, KeySorted r) : KeySorted (p.output v readers) := by
  unfold output
  rw [keySorted_iff_keys, zeroSeqnos_keys, ← keySorted_iff_keys]
  exact StreamConfig.compactionStream_sorted (mergeAll_keySorted h)

theorem output_key_mem {e : InternalValue K V} (h : e ∈ p.output v readers) :
    ∃ r ∈ readers, ∃ f ∈ r, f.userKey = e.userKey := by
  unfold output at h
  have hk := mem_map_of_mem (f := fun e : InternalValue K V => e.userKey) h
  rw [zeroSeqnos_keys] at hk
  obtain ⟨g, hg, hgk⟩ := mem_map.1 hk
  obtain ⟨f, hf, hfk⟩ := StreamConfig.compactionStream_key_mem hg
  obtain ⟨r, hr, hfr⟩ := KWayMerge.mem_mergeAll.1 hf
  exact ⟨r, hr, f, hfr, hfk.trans hgk⟩

end CompactionPayload

namespace Version

variable {v : Version (Table K V)} {ids : List ℕ} {run : List (Table K V)}

structure Sound (v : Version (Table K V)) : Prop extends v.Ordered where
  wf : ∀ t ∈ v.tables, t.WF

theorem flatMap_entries_sorted (hs : SortedRun run) (hwf : ∀ t ∈ run, t.WF) :
    KeySorted (run.flatMap (·.entries)) := by
  refine pairwise_flatMap.2 ⟨fun t ht => (hwf t ht).sorted, ?_⟩
  refine hs.imp_of_mem ?_
  intro t t' ht ht' hlt e he e' he'
  exact (((hwf t ht).bounds e he).2.trans_lt hlt).le.trans ((hwf t' ht').bounds e' he').1

omit [LinearOrder K] in
theorem pickRunIndexes_spec {lo hi : ℕ} (h : pickRunIndexes run ids = some (lo, hi)) :
    (∃ a, run[lo]? = some a ∧ a.id ∈ ids) ∧ (∃ b, run[hi]? = some b ∧ b.id ∈ ids) ∧ lo ≤ hi := by
  unfold pickRunIndexes at h
  split at h
  case h_2 => cases h
  case h_1 first back hlo hback =>
    cases h
    obtain ⟨hlt, hid, -⟩ := findIdx?_eq_some_iff_getElem.1 hlo
    obtain ⟨hlt', hid', hmin⟩ := findIdx?_eq_some_iff_getElem.1 hback
    rw [length_reverse] at hlt'
    rw [getElem_reverse] at hid'
    refine ⟨⟨_, getElem?_eq_getElem hlt, by simpa using hid⟩,
      ⟨_, getElem?_eq_getElem (by omega), by simpa using hid'⟩, ?_⟩
    -- an input further back than the first one seen from the back cannot be
    by_contra hgt
    have hnot := hmin (run.length - 1 - lo) (by omega)
    rw [getElem_reverse] at hnot
    have hidx : run.length - 1 - (run.length - 1 - lo) = lo := by omega
    simp only [hidx] at hnot
    exact absurd hid hnot

theorem runReaders_spec (hs : SortedRun run) (hv : ∀ t ∈ run, Valid t) (hwf : ∀ t ∈ run, t.WF)
    {r : List (InternalValue K V)} (hr : r ∈ (runReaders ids run).1) :
    KeySorted r ∧ ∀ e ∈ r, KeyInHull (run.filter (·.id ∈ ids)) e.userKey := by
  unfold runReaders at hr
  split at hr
  · split at hr
    case h_2 => cases hr
    case h_1 lo hi hpick =>
      obtain ⟨⟨a, ha, haid⟩, ⟨b, hb, hbid⟩, hle⟩ := pickRunIndexes_spec hpick
      rw [mem_singleton] at hr
      subst hr
      have hsub : ((run.drop lo).take (hi - lo + 1)).Sublist run :=
        (take_sublist _ _).trans (drop_sublist _ _)
      refine ⟨flatMap_entries_sorted (List.Pairwise.sublist hsub hs)
        fun t ht => hwf t (hsub.subset ht), ?_⟩
      intro e he
      obtain ⟨t, ht, het⟩ := mem_flatMap.1 he
      obtain ⟨i, hi'⟩ := mem_iff_getElem?.1 ht
      rw [getElem?_take, getElem?_drop] at hi'
      split at hi'
      case isFalse => cases hi'
      case isTrue hlt =>
        have hbound := (hwf t (hsub.subset ht)).bounds e het
        have hlo := SortedRun.getElem_le hs hv (Nat.le_add_right lo i) ha hi'
        have hhi := SortedRun.getElem_le hs hv (by omega : lo + i ≤ hi) hi' hb
        have hmem : ∀ {t : Table K V}, t ∈ run → t.id ∈ ids → t ∈ run.filter (·.id ∈ ids) :=
          fun ht hid => mem_filter.2 ⟨ht, decide_eq_true hid⟩
        exact ⟨⟨a, hmem (mem_of_getElem? ha) haid, hlo.1.trans hbound.1⟩,
          b, hmem (mem_of_getElem? hb) hbid, hbound.2.trans hhi.2⟩
  · obtain ⟨t, ht, rfl⟩ := mem_map.1 hr
    have hwft := hwf t (mem_filter.1 ht).1
    exact ⟨hwft.sorted, fun e he =>
      ⟨⟨t, ht, (hwft.bounds e he).1⟩, t, ht, (hwft.bounds e he).2⟩⟩

theorem Sound.run_good (h : v.Sound) {runs : List (List (Table K V))} (hl : runs ∈ v.levels)
    (hr : run ∈ runs) : GoodRun run ∧ ∀ t ∈ run, t.WF := by
  obtain ⟨i, hi⟩ := mem_iff_getElem?.1 hl
  have hlevel : v.level i = runs := by rw [level, hi]; rfl
  refine ⟨h.runs i run (by rwa [hlevel]), fun t ht => h.wf t ?_⟩
  exact mem_flatten.2 ⟨run, mem_flatten.2 ⟨runs, hl, hr⟩, ht⟩

variable {readers : List (List (InternalValue K V))}

theorem compactionReaders_spec (h : v.Sound) (hr : v.compactionReaders ids = some readers) :
    (∀ r ∈ readers, KeySorted r) ∧
      ∀ r ∈ readers, ∀ e ∈ r, KeyInHull (v.inputs ids) e.userKey := by
  unfold compactionReaders at hr
  dsimp only at hr
  split at hr
  case isFalse => cases hr
  case isTrue =>
    cases hr
    have hall : ∀ r ∈ (v.levels.flatten.map (runReaders ids)).flatMap (·.1),
        KeySorted r ∧ ∀ e ∈ r, KeyInHull (v.inputs ids) e.userKey := by
      intro r hr
      obtain ⟨_, hmap, hr⟩ := mem_flatMap.1 hr
      obtain ⟨run, hrun, rfl⟩ := mem_map.1 hmap
      obtain ⟨runs, hruns, hmem⟩ := mem_flatten.1 hrun
      obtain ⟨hg, hwf⟩ := h.run_good hruns hmem
      obtain ⟨hs, hhull⟩ := runReaders_spec hg.sorted hg.valid hwf hr
      refine ⟨hs, fun e he => (hhull e he).mono fun t ht => ?_⟩
      obtain ⟨ht, hid⟩ := mem_filter.1 ht
      exact mem_filter.2 ⟨mem_flatten.2 ⟨run, hrun, ht⟩, hid⟩
    exact ⟨fun r hr => (hall r hr).1, fun r hr => (hall r hr).2⟩

theorem boundedReaders_spec (h : v.Sound) {sub : SubRange K}
    (hr : v.boundedReaders ids sub = some readers) :
    (∀ r ∈ readers, KeySorted r) ∧
      ∀ r ∈ readers, ∀ e ∈ r, KeyInHull (v.inputs ids) e.userKey ∧ sub.contains e.userKey = true := by
  unfold boundedReaders at hr
  dsimp only at hr
  split at hr
  case isFalse => cases hr
  case isTrue =>
    cases hr
    constructor
    · intro r hr
      obtain ⟨t, ht, rfl⟩ := mem_map.1 hr
      exact List.Pairwise.filter _ (h.wf t (mem_filter.1 ht).1).sorted
    · intro r hr e he
      obtain ⟨t, ht, rfl⟩ := mem_map.1 hr
      obtain ⟨he, hsub⟩ := mem_filter.1 he
      have hb := (h.wf t (mem_filter.1 ht).1).bounds e he
      exact ⟨⟨⟨t, ht, hb.1⟩, t, ht, hb.2⟩, hsub⟩

theorem boundaryCandidates_sorted (keys : List K) :
    (boundaryCandidates keys).Pairwise (· ≤ ·) := by
  unfold boundaryCandidates
  split
  · exact List.Pairwise.nil
  · refine List.Pairwise.sublist ((dropLast_sublist _).trans ?_)
      (pairwise_insertionSort (· ≤ ·) keys)
    exact destutter_sublist _ _

theorem subcompactionBoundaries_sorted (v : Version (Table K V)) (destLevel maxRanges : ℕ) :
    (v.subcompactionBoundaries destLevel maxRanges).Pairwise (· ≤ ·) := by
  unfold subcompactionBoundaries
  split
  · exact List.Pairwise.nil
  · dsimp only
    set keys := boundaryCandidates
      (((v.levels[destLevel]?).getD []).flatten.map (·.keyRange.max)) with hkeys
    have hs : keys.Pairwise (· ≤ ·) := boundaryCandidates_sorted _
    split
    · exact hs
    · refine List.Pairwise.sublist (destutter_sublist _ _) ?_
      refine List.Pairwise.filterMap _ ?_ pairwise_lt_range
      intro i j hij a ha b hb
      -- the sampled positions do not go back
      obtain ⟨hi, rfl⟩ := List.getElem?_eq_some_iff.1 ha
      obtain ⟨hj, rfl⟩ := List.getElem?_eq_some_iff.1 hb
      have hle : (i + 1) * keys.length / (min (maxRanges - 1) keys.length + 1) ≤
          (j + 1) * keys.length / (min (maxRanges - 1) keys.length + 1) :=
        Nat.div_le_div_right (Nat.mul_le_mul_right _ (by omega))
      have hle' := min_le_min_right (keys.length - 1) hle
      rcases Nat.eq_or_lt_of_le hle' with heq | hlt
      · simp only [heq, le_refl]
      · exact pairwise_iff_getElem.1 hs _ _ hi hj hlt

variable {bs : List K}

omit [LinearOrder K] in
theorem rangesFromBoundaries_lo {lo : Option K} {r : SubRange K}
    (h : r ∈ rangesFromBoundaries lo bs) : r.lo = lo ∨ ∃ b ∈ bs, r.lo = some b := by
  induction bs generalizing lo with
  | nil =>
    rw [rangesFromBoundaries, mem_singleton] at h
    exact Or.inl (by rw [h])
  | cons b bs ih =>
    rcases mem_cons.1 h with rfl | h
    · exact Or.inl rfl
    · rcases ih h with h | ⟨b', hb', h⟩
      · exact Or.inr ⟨b, mem_cons_self, h⟩
      · exact Or.inr ⟨b', mem_cons_of_mem _ hb', h⟩

theorem rangesFromBoundaries_pairwise (lo : Option K) (hs : bs.Pairwise (· ≤ ·)) :
    (rangesFromBoundaries lo bs).Pairwise fun r r' =>
      ∀ k k', r.contains k = true → r'.contains k' = true → k < k' := by
  induction bs generalizing lo with
  | nil => exact pairwise_singleton _ _
  | cons b bs ih =>
    rw [pairwise_cons] at hs
    refine pairwise_cons.2 ⟨?_, ih _ hs.2⟩
    intro r' hr' k k' hk hk'
    obtain ⟨b', hlo, hle⟩ : ∃ b', r'.lo = some b' ∧ b ≤ b' := by
      rcases rangesFromBoundaries_lo hr' with h | ⟨b', hb', h⟩
      · exact ⟨b, h, le_rfl⟩
      · exact ⟨b', h, hs.1 b' hb'⟩
    simp only [SubRange.contains, hlo, Option.all_some, Bool.and_eq_true, decide_eq_true_eq] at hk hk'
    exact hk.2.trans_le (hle.trans hk'.1)

end Version

namespace CompactionPayload

variable [RawKey K] [Inhabited V] {p : CompactionPayload K V} {v : Version (Table K V)}
  {rts : List (RangeTombstone K)} {j : MergeJob K V}

structure GoodJob (inputs : List (Table K V)) (j : MergeJob K V) : Prop where
  sorted : KeySorted j.items
  hull : ∀ e ∈ j.items, KeyInHull inputs e.userKey

omit [RawKey K] [Inhabited V] in
theorem serialJob_spec (h : v.Sound) (hj : p.serialJob v rts = some j) :
    GoodJob (v.inputs p.tableIds) j := by
  obtain ⟨readers, hr, hj⟩ := Option.bind_eq_some_iff.1 hj
  cases hj
  obtain ⟨hs, hhull⟩ := Version.compactionReaders_spec h hr
  refine ⟨output_keySorted hs, fun e he => ?_⟩
  obtain ⟨r, hr, f, hf, hk⟩ := output_key_mem he
  exact hk ▸ hhull r hr f hf

omit [RawKey K] [Inhabited V] in
theorem subJob_spec (h : v.Sound) {sub : Version.SubRange K} {i : ℕ}
    (hj : p.subJob v rts sub i = some j) :
    GoodJob (v.inputs p.tableIds) j ∧ ∀ e ∈ j.items, sub.contains e.userKey = true := by
  obtain ⟨readers, hr, hj⟩ := Option.bind_eq_some_iff.1 hj
  cases hj
  obtain ⟨hs, hhull⟩ := Version.boundedReaders_spec h hr
  refine ⟨⟨output_keySorted hs, fun e he => ?_⟩, fun e he => ?_⟩
  · obtain ⟨r, hr, f, hf, hk⟩ := output_key_mem he
    exact hk ▸ (hhull r hr f hf).1
  · obtain ⟨r, hr, f, hf, hk⟩ := output_key_mem he
    exact hk ▸ (hhull r hr f hf).2

omit [Inhabited V] in
theorem jobs_spec (h : v.Sound) {jobs : List (MergeJob K V)} (hj : p.jobs v = some jobs) :
    (∀ j ∈ jobs, GoodJob (v.inputs p.tableIds) j) ∧
      jobs.Pairwise fun j j' => ∀ e ∈ j.items, ∀ e' ∈ j'.items, e.userKey < e'.userKey := by
  obtain ⟨tables, -, hj⟩ := Option.bind_eq_some_iff.1 hj
  dsimp only at hj
  split at hj
  · obtain ⟨j, hser, rfl⟩ := Option.map_eq_some_iff.1 hj
    refine ⟨?_, pairwise_singleton _ _⟩
    intro j' hj'
    rw [mem_singleton.1 hj']
    exact serialJob_spec h hser
  case h_2 b bs hb =>
    have hall := Pointwise.forall₂_of_mapM hj
    have hsorted : (b :: bs).Pairwise (· ≤ ·) := by
      rw [← hb, boundaries]
      split
      · exact Version.subcompactionBoundaries_sorted _ _ _
      · exact List.Pairwise.nil
    constructor
    · intro j hj
      obtain ⟨⟨sub, i⟩, -, hsub⟩ := Pointwise.exists_of_forall₂_mem hall hj
      exact (subJob_spec h hsub).1
    · have hranges := Version.rangesFromBoundaries_pairwise none hsorted
      rw [← zipIdx_map_fst 0 (Version.rangesFromBoundaries none (b :: bs)),
        pairwise_map] at hranges
      refine Pointwise.pairwise_of_forall₂ hall hranges ?_
      rintro ⟨r, i⟩ j ⟨r', i'⟩ j' hj hj' hlt e he e' he'
      exact hlt _ _ ((subJob_spec h hj).2 e he) ((subJob_spec h hj').2 e' he')

end CompactionPayload

section Outputs

variable [RawKey K] [Inhabited V] {jobs : List (MergeJob K V)} {inputs : List (Table K V)}

structure GoodOutputs (inputs outputs : List (Table K V)) : Prop where
  sorted : SortedRun outputs
  wf : ∀ t ∈ outputs, t.WF
  hull : ∀ t ∈ outputs, InHull inputs t.keyRange

/-- No writer of the merge makes a table out of range tombstones alone. -/
def NoTombstoneOnlyOutput (jobs : List (MergeJob K V)) : Prop :=
  ∀ j ∈ jobs, NoTombstoneOnly j.outputFull j.items j.rangeTombstones

theorem goodOutputs_of_jobs (hgood : ∀ j ∈ jobs, CompactionPayload.GoodJob inputs j)
    (hpair : jobs.Pairwise fun j j' => ∀ e ∈ j.items, ∀ e' ∈ j'.items, e.userKey < e'.userKey)
    (hto : NoTombstoneOnlyOutput jobs) : GoodOutputs inputs (jobs.flatMap (·.outputs)) := by
  have hwritten : ∀ j ∈ jobs, SortedRun j.outputs ∧ ∀ t ∈ j.outputs, Written j.items t :=
    fun j hj => writeAll_written (hgood j hj).sorted (hto j hj)
  refine ⟨?_, ?_, ?_⟩
  · refine pairwise_flatMap.2 ⟨fun j hj => (hwritten j hj).1, ?_⟩
    refine hpair.imp_of_mem ?_
    intro j j' hj hj' hlt t ht t' ht'
    obtain ⟨e, he, hmax⟩ := ((hwritten j hj).2 t ht).last
    obtain ⟨e', he', hmin⟩ := ((hwritten j' hj').2 t' ht').first
    exact hmax.trans_lt ((hlt e he e' he').trans_eq hmin.symm)
  · intro t ht
    obtain ⟨j, hj, htj⟩ := mem_flatMap.1 ht
    exact ((hwritten j hj).2 t htj).wf
  · intro t ht
    obtain ⟨j, hj, htj⟩ := mem_flatMap.1 ht
    obtain ⟨e, he, hmin⟩ := ((hwritten j hj).2 t htj).first
    obtain ⟨l, hl, hmax⟩ := ((hwritten j hj).2 t htj).last
    obtain ⟨⟨a, ha, hae⟩, -⟩ := (hgood j hj).hull e he
    obtain ⟨-, b, hb, hlb⟩ := (hgood j hj).hull l hl
    exact ⟨⟨a, ha, hae.trans hmin.ge⟩, b, hb, hmax.trans hlb⟩

end Outputs

end LsmTree
