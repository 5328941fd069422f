import LsmTree.Compaction.MergeOutputs

/-! Where the outputs of a merge come from. -/
namespace LsmTree

open List

variable {K V : Type*} [LinearOrder K]

namespace Version

variable {run : List (Table K V)} {ids : List ℕ}

omit [LinearOrder K] in
theorem filter_eq_span {lo hi : ℕ} (h : pickRunIndexes run ids = some (lo, hi)) :
    run.filter (·.id ∈ ids) = ((run.drop lo).take (hi - lo + 1)).filter (·.id ∈ ids) ∧
      hi < run.length := by
  obtain ⟨-, ⟨b, hb, -⟩, hle⟩ := pickRunIndexes_spec h
  have hlt : hi < run.length := (List.getElem?_eq_some_iff.1 hb).1
  refine ⟨?_, hlt⟩
  unfold pickRunIndexes at h
  split at h
  case h_2 => cases h
  case h_1 first back hlo hback =>
    cases h
    obtain ⟨_, _, hbefore⟩ := findIdx?_eq_some_iff_getElem.1 hlo
    obtain ⟨hback', _, hafter⟩ := findIdx?_eq_some_iff_getElem.1 hback
    rw [length_reverse] at hback'
    have htake : (run.take lo).filter (·.id ∈ ids) = [] := by
      rw [filter_eq_nil_iff]
      intro t ht
      obtain ⟨i, hi, rfl⟩ := mem_take_iff_getElem.1 ht
      exact hbefore i (by omega)
    have hdrop : (run.drop (run.length - 1 - back + 1)).filter (·.id ∈ ids) = [] := by
      rw [filter_eq_nil_iff]
      intro t ht
      obtain ⟨i, hi, rfl⟩ := mem_drop_iff_getElem.1 ht
      have hnot := hafter (run.length - 1 - (run.length - 1 - back + 1 + i)) (by omega)
      rw [getElem_reverse] at hnot
      have hidx : run.length - 1 - (run.length - 1 - (run.length - 1 - back + 1 + i)) =
          run.length - 1 - back + 1 + i := by omega
      simpa only [hidx] using hnot
    have hspan : run = run.take lo ++ ((run.drop lo).take (run.length - 1 - back - lo + 1) ++
        run.drop (run.length - 1 - back + 1)) := by
      have : run.drop (run.length - 1 - back + 1) =
          (run.drop lo).drop (run.length - 1 - back - lo + 1) := by
        rw [drop_drop]
        congr 1
        omega
      rw [this, take_append_drop, take_append_drop]
    conv_lhs => rw [hspan]
    rw [filter_append, filter_append, htake, hdrop, append_nil, nil_append]

omit [LinearOrder K] in
theorem filter_of_pickRunIndexes_none (h : pickRunIndexes run ids = none) :
    run.filter (·.id ∈ ids) = [] := by
  rw [filter_eq_nil_iff]
  intro t ht hid
  have hfirst : run.findIdx? (·.id ∈ ids) ≠ none := fun hn =>
    Bool.false_ne_true ((findIdx?_eq_none_iff.1 hn t ht).symm.trans hid)
  have hback : run.reverse.findIdx? (·.id ∈ ids) ≠ none := fun hn =>
    Bool.false_ne_true ((findIdx?_eq_none_iff.1 hn t (mem_reverse.2 ht)).symm.trans hid)
  obtain ⟨lo, hlo⟩ := Option.ne_none_iff_exists'.1 hfirst
  obtain ⟨back, hback⟩ := Option.ne_none_iff_exists'.1 hback
  simp [pickRunIndexes, hlo, hback] at h

omit [LinearOrder K] in
theorem runReaders_covers :
    (run.filter (·.id ∈ ids)).length ≤ (runReaders ids run).2 ∧
      ((runReaders ids run).2 ≤ (run.filter (·.id ∈ ids)).length →
        (runReaders ids run).1 = (run.filter (·.id ∈ ids)).map (·.entries) ∨
          (runReaders ids run).1 = [(run.filter (·.id ∈ ids)).flatMap (·.entries)]) := by
  unfold runReaders
  split
  · split
    case h_1 lo hi hpick =>
      obtain ⟨hspan, hlt⟩ := filter_eq_span hpick
      obtain ⟨-, -, hle⟩ := pickRunIndexes_spec hpick
      have hlen : ((run.drop lo).take (hi - lo + 1)).length = hi - lo + 1 := by
        rw [length_take, length_drop]
        omega
      rw [hspan]
      refine ⟨(length_filter_le _ _).trans hlen.le, fun hge => Or.inr ?_⟩
      have hall := length_filter_eq_length_iff.1
        (le_antisymm (length_filter_le _ _) (hlen.trans_le hge))
      rw [filter_eq_self.2 hall]
    case h_2 hpick =>
      rw [filter_of_pickRunIndexes_none hpick]
      exact ⟨le_rfl, fun _ => Or.inl rfl⟩
  · exact ⟨le_rfl, fun _ => Or.inl rfl⟩

theorem le_of_sum_le {α : Type*} {f g : α → ℕ} {l : List α} (hle : ∀ x ∈ l, g x ≤ f x) :
    (l.map g).sum ≤ (l.map f).sum ∧
      ((l.map f).sum ≤ (l.map g).sum → ∀ x ∈ l, f x ≤ g x) := by
  induction l with
  | nil => simp
  | cons y l ih =>
    obtain ⟨hy, hl⟩ := forall_mem_cons.1 hle
    obtain ⟨hsum, hall⟩ := ih hl
    simp only [map_cons, sum_cons]
    exact ⟨by omega, fun h => forall_mem_cons.2 ⟨by omega, hall (by omega)⟩⟩

variable {v : Version (Table K V)} {readers : List (List (InternalValue K V))}

omit [LinearOrder K] in
theorem compactionReaders_exact (hnd : ids.Nodup) (hall : ∀ id ∈ ids, ∃ t ∈ v.tables, t.id = id)
    (h : v.compactionReaders ids = some readers) :
    readers = v.levels.flatten.flatMap (fun run => (runReaders ids run).1) ∧
      (v.tables.filter (·.id ∈ ids)).length = ids.length ∧
      ∀ run ∈ v.levels.flatten, (runReaders ids run).2 ≤ (run.filter (·.id ∈ ids)).length := by
  unfold compactionReaders at h
  dsimp only at h
  split at h
  case isFalse => cases h
  case isTrue hcount =>
    cases h
    rw [map_map] at hcount
    obtain ⟨hsum, hle⟩ := le_of_sum_le (l := v.levels.flatten)
      (f := fun run => (runReaders ids run).2)
      (g := fun run => (run.filter (·.id ∈ ids)).length) fun run _ => runReaders_covers.1
    have hlen : (v.tables.filter (·.id ∈ ids)).length =
        (v.levels.flatten.map fun run => (run.filter (·.id ∈ ids)).length).sum := by
      rw [tables, filter_flatten, length_flatten, map_map]
      rfl
    -- every id is that of some table, so there are at least as many inputs as ids
    have hinputs : ids.length ≤ (v.tables.filter (·.id ∈ ids)).length := by
      have hsub : ids ⊆ (v.tables.filter (·.id ∈ ids)).map (·.id) := by
        intro id hid
        obtain ⟨t, ht, rfl⟩ := hall id hid
        exact mem_map.2 ⟨t, mem_filter.2 ⟨ht, decide_eq_true hid⟩, rfl⟩
      simpa using (subperm_of_subset hnd hsub).length_le
    refine ⟨by rw [flatMap_map], le_antisymm ?_ hinputs, hle ?_⟩
    · exact (hlen.trans_le hsum).trans hcount.le
    · exact hcount.le.trans (hinputs.trans hlen.le)

omit [LinearOrder K] in
theorem compactionReaders_inputs (hnd : ids.Nodup) (hall : ∀ id ∈ ids, ∃ t ∈ v.tables, t.id = id)
    (h : v.compactionReaders ids = some readers) :
    ∀ r ∈ readers, ∀ e ∈ r, ∃ t ∈ v.tables, t.id ∈ ids ∧ e ∈ t.entries := by
  obtain ⟨rfl, -, hle⟩ := compactionReaders_exact hnd hall h
  intro r hr e he
  obtain ⟨run, hrun, hr⟩ := mem_flatMap.1 hr
  obtain ⟨t, ht, het⟩ : ∃ t ∈ run.filter (·.id ∈ ids), e ∈ t.entries := by
    rcases runReaders_covers.2 (hle run hrun) with heq | heq
    · rw [heq] at hr
      obtain ⟨t, ht, rfl⟩ := mem_map.1 hr
      exact ⟨t, ht, he⟩
    · rw [heq, mem_singleton] at hr
      subst hr
      exact mem_flatMap.1 he
  obtain ⟨hmem, hid⟩ := mem_filter.1 ht
  exact ⟨t, mem_flatten.2 ⟨run, hrun, hmem⟩, of_decide_eq_true hid, het⟩

theorem boundedReaders_inputs {sub : SubRange K} (h : v.boundedReaders ids sub = some readers) :
    ∀ r ∈ readers, ∀ e ∈ r, ∃ t ∈ v.tables, t.id ∈ ids ∧ e ∈ t.entries := by
  unfold boundedReaders at h
  dsimp only at h
  split at h
  case isFalse => cases h
  case isTrue =>
    cases h
    intro r hr e he
    obtain ⟨t, ht, rfl⟩ := mem_map.1 hr
    obtain ⟨hmem, hid⟩ := mem_filter.1 ht
    exact ⟨t, hmem, of_decide_eq_true hid, (mem_filter.1 he).1⟩

end Version

theorem mem_zeroSeqnos {enabled : Bool} {watermark : ℕ} {rts : List (RangeTombstone K)}
    {items : List (InternalValue K V)} {e : InternalValue K V}
    (h : e ∈ zeroSeqnos enabled watermark rts items) :
    ∃ g ∈ items, e = g ∨ enabled = true ∧ e = { g with seqno := 0 } := by
  unfold zeroSeqnos at h
  split at h
  case isTrue henabled =>
    obtain ⟨g, hg, rfl⟩ := mem_map.1 h
    refine ⟨g, hg, ?_⟩
    split
    · exact Or.inr ⟨henabled, rfl⟩
    · exact Or.inl rfl
  · exact ⟨e, h, Or.inl rfl⟩

namespace CompactionPayload

variable {p : CompactionPayload K V} {v : Version (Table K V)}

variable {readers : List (List (InternalValue K V))} {e : InternalValue K V}

theorem output_seqno (h : e ∈ p.output v readers) : ∃ r ∈ readers, ∃ f ∈ r, f.userKey = e.userKey ∧
      (e.seqno = f.seqno ∨ v.isLastLevel p.destLevel = true ∧ e.seqno = 0) := by
  obtain ⟨g, hg, hzero⟩ := mem_zeroSeqnos h
  obtain ⟨f, hf, hyields⟩ := StreamConfig.run_yields [] _ g hg
  obtain ⟨r, hr, hfr⟩ := KWayMerge.mem_mergeAll.1 hf
  refine ⟨r, hr, f, hfr, ?_⟩
  rcases hzero with rfl | ⟨hlast, rfl⟩
  · exact ⟨hyields.userKey.symm, Or.inl hyields.seqno⟩
  · exact ⟨hyields.userKey.symm, Or.inr ⟨hlast, rfl⟩⟩

variable [RawKey K] [Inhabited V]

omit [LinearOrder K] [RawKey K] [Inhabited V] in
theorem getTable_spec {id : ℕ} {t : Table K V} (h : v.getTable id = some t) :
    t ∈ v.tables ∧ t.id = id :=
  ⟨mem_of_find?_eq_some h, eq_of_beq (find?_some (p := fun _ => _ == id) h)⟩

variable {jobs : List (MergeJob K V)}

omit [Inhabited V] in
theorem jobs_found (hj : p.jobs v = some jobs) :
    ∀ id ∈ p.tableIds, ∃ t ∈ v.tables, t.id = id := by
  obtain ⟨tables, htables, -⟩ := Option.bind_eq_some_iff.1 hj
  intro id hid
  obtain ⟨t, -, ht⟩ := Pointwise.exists_of_forall₂_mem (List.Forall₂.flip (Pointwise.forall₂_of_mapM htables)) hid
  exact ⟨t, getTable_spec ht⟩

omit [Inhabited V] in
theorem mem_inputRangeTombstones {tables : List (Table K V)}
    (htables : p.tableIds.mapM v.getTable = some tables) {rt : RangeTombstone K}
    (hrt : rt ∈ inputRangeTombstones tables) :
    ∃ t ∈ v.tables, t.id ∈ p.tableIds ∧ rt ∈ t.rangeTombstones := by
  have hmem := (mem_insertionSort _).1 ((destutter_sublist _ _).subset hrt)
  obtain ⟨t, ht, hrt⟩ := mem_flatMap.1 hmem
  obtain ⟨id, hid, hget⟩ := Pointwise.exists_of_forall₂_mem (Pointwise.forall₂_of_mapM htables) ht
  obtain ⟨htv, rfl⟩ := getTable_spec hget
  exact ⟨t, htv, hid, hrt⟩

omit [Inhabited V] in
theorem jobs_given (hnd : p.tableIds.Nodup) (hj : p.jobs v = some jobs) : ∀ j ∈ jobs,
      (∃ readers, j.items = p.output v readers ∧ ∀ r ∈ readers, ∀ e ∈ r,
        ∃ t ∈ v.tables, t.id ∈ p.tableIds ∧ e ∈ t.entries) ∧
      ∀ rt ∈ j.rangeTombstones, ∃ t ∈ v.tables, t.id ∈ p.tableIds ∧ rt ∈ t.rangeTombstones := by
  have hall := jobs_found hj
  obtain ⟨tables, htables, hj⟩ := Option.bind_eq_some_iff.1 hj
  have hrts := fun rt (hrt : rt ∈ inputRangeTombstones tables) =>
    mem_inputRangeTombstones htables hrt
  dsimp only at hj
  split at hj
  · obtain ⟨j, hser, rfl⟩ := Option.map_eq_some_iff.1 hj
    obtain ⟨readers, hr, hser⟩ := Option.bind_eq_some_iff.1 hser
    cases hser
    intro j' hj'
    rw [mem_singleton.1 hj']
    exact ⟨⟨readers, rfl, Version.compactionReaders_inputs hnd hall hr⟩, hrts⟩
  · intro j hmem
    obtain ⟨⟨sub, i⟩, -, hsub⟩ := Pointwise.exists_of_forall₂_mem (Pointwise.forall₂_of_mapM hj) hmem
    obtain ⟨readers, hr, hsub⟩ := Option.bind_eq_some_iff.1 hsub
    cases hsub
    refine ⟨⟨readers, rfl, Version.boundedReaders_inputs hr⟩, fun rt hrt => hrts rt ?_⟩
    dsimp only [Version.rangeTombstonesAfterGc] at hrt
    split at hrt
    · exact (mem_filter.1 hrt).1
    · exact hrt

end CompactionPayload

end LsmTree
