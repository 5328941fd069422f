import LsmTree.Compaction.LeveledChoice

/-! The levels that a choice of the leveled strategy takes its tables from. -/
namespace LsmTree

open List Nat

variable {T K : Type*} [LinearOrder K] [TableMeta T K]

namespace Version

variable (v : Version T)

/-- The levels from L0 down to the target are emptied; the target's own tables may come along. -/
structure TakesTop (input : CompactionInput) : Prop where
  top : ∀ t ∈ (v.level 0).flatten, TableMeta.id t ∈ input.tableIds
  between : ∀ i, 1 ≤ i → i < input.destLevel → ∀ t ∈ (v.level i).flatten,
    TableMeta.id t ∈ input.tableIds
  source : ∀ t ∈ v.inputs input.tableIds, ∃ i ≤ input.destLevel, t ∈ (v.level i).flatten ∧
    (i = 0 ∨ input.destLevel ≤ i + 1)

/-- Tables of one level below L0 go to the next, and one of them was free. -/
structure TakesWindow (hidden : List ℕ) (i : ℕ) (input : CompactionInput) : Prop where
  level : 1 ≤ i
  dest : input.destLevel = i + 1
  free : ∃ t ∈ (v.level i).flatten, TableMeta.id t ∉ hidden
  source : ∀ t ∈ v.inputs input.tableIds, t ∈ (v.level i).flatten ∨ t ∈ (v.level (i + 1)).flatten

variable {v}

omit [LinearOrder K] in
theorem levelIsBusy_eq_false {i : ℕ} {hidden : List ℕ} :
    v.levelIsBusy i hidden = false ↔ ∀ t ∈ (v.level i).flatten, TableMeta.id t ∉ hidden := by
  unfold levelIsBusy
  rw [any_eq_false]
  simp only [decide_eq_true_eq]

omit [LinearOrder K] in
theorem levelIsBusy_of_nil {i : ℕ} {hidden : List ℕ} (h : v.level i = []) :
    v.levelIsBusy i hidden = false := by
  rw [levelIsBusy_eq_false, h]
  exact fun t ht => nomatch ht

omit [LinearOrder K] in
theorem DistinctIds.level_unique (hd : v.DistinctIds) {t : T} {i j : ℕ}
    (hi : t ∈ (v.level i).flatten) (hj : t ∈ (v.level j).flatten) : i = j := by
  have hlevels : (v.levels.map List.flatten).Pairwise List.Disjoint := by
    have hnd : (v.levels.map List.flatten).flatten.Nodup := by
      rw [← flatten_flatten]
      exact List.Nodup.of_map _ hd
    exact (nodup_flatten.1 hnd).2
  have hget : ∀ {k : ℕ}, t ∈ (v.level k).flatten → ∃ h : k < (v.levels.map List.flatten).length,
      t ∈ (v.levels.map List.flatten)[k] := by
    intro k hk
    unfold level at hk
    cases hlevel : v.levels[k]? with
    | none => simp [hlevel] at hk
    | some runs =>
      obtain ⟨hlt, rfl⟩ := List.getElem?_eq_some_iff.1 hlevel
      exact ⟨by simpa using hlt, by simpa [hlevel] using hk⟩
  obtain ⟨hil, hi⟩ := hget hi
  obtain ⟨hjl, hj⟩ := hget hj
  rcases lt_trichotomy i j with hlt | heq | hlt
  · exact absurd hj (pairwise_iff_getElem.1 hlevels i j hil hjl hlt hi)
  · exact heq
  · exact absurd hi (pairwise_iff_getElem.1 hlevels j i hjl hil hlt hj)

end Version

namespace Strategy

variable {st : Strategy} {sc : Scoring T} {v : Version T} {hidden : List ℕ}
  {input : CompactionInput}

omit [LinearOrder K] in
theorem isBlocked_eq_false {ts : List T} :
    isBlocked hidden ts = false ↔ ∀ t ∈ ts, TableMeta.id t ∉ hidden := by
  unfold isBlocked
  rw [any_eq_false]
  simp only [decide_eq_true_eq]

section First

omit [LinearOrder K] in
theorem level_eq_nil_of_lt_first {i : ℕ} (hi : 1 ≤ i) (h : i < firstNonEmptyLevel v) :
    v.level i = [] := by
  by_contra hne
  have hp : (i != 0 && !(v.level i).isEmpty) = true := by
    simp [hne, one_le_iff_ne_zero.1 hi]
  unfold firstNonEmptyLevel at h
  cases hfind : (List.range v.levels.length).find? fun i => i != 0 && !(v.level i).isEmpty with
  | none =>
    rw [hfind, Option.getD_none] at h
    have hlt : i < v.levels.length := by omega
    exact find?_eq_none.1 hfind i (mem_range.2 hlt) hp
  | some first =>
    rw [hfind, Option.getD_some] at h
    have hbefore := (find?_range_eq_some.1 hfind).2.2 i h
    rw [hp] at hbefore
    cases hbefore

omit [LinearOrder K] in
theorem canonicalL1_le : canonicalL1 sc v ≤ firstNonEmptyLevel v := by
  unfold canonicalL1
  dsimp only
  split
  · exact sub_le _ _
  · exact le_rfl

omit [LinearOrder K] in
theorem level_eq_nil_of_lt_canonicalL1 {i : ℕ} (hi : 1 ≤ i)
    (h : i < canonicalL1 sc v) : v.level i = [] :=
  level_eq_nil_of_lt_first hi (h.trans_le canonicalL1_le)

end First

section Top

omit [LinearOrder K] in
theorem takesTop_of_l0 (hd : v.DistinctIds) {target : ℕ} {ids : List ℕ} (others : List T)
    (hothers : ∀ t ∈ others, ∃ i ≤ target, target ≤ i + 1 ∧ t ∈ (v.level i).flatten)
    (hbetween : ∀ i, 1 ≤ i → i < target → ∀ t ∈ (v.level i).flatten, t ∈ others)
    (hids : ∀ i, i ∈ ids ↔ i ∈ Version.listIds (v.level 0) ++ others.map TableMeta.id) :
    v.TakesTop ⟨ids, target⟩ where
  top t ht := (hids _).2 (mem_append_left _ (mem_map_of_mem ht))
  between i hi hlt t ht :=
    (hids _).2 (mem_append_right _ (mem_map_of_mem (hbetween i hi hlt t ht)))
  source := by
    intro t ht
    have hmem := hd.mem_inputs ((v.level 0).flatten ++ others) ?_ ?_ ht
    · rcases mem_append.1 hmem with h0 | hother
      · exact ⟨0, zero_le _, h0, Or.inl rfl⟩
      · obtain ⟨i, hi, hdest, ht⟩ := hothers t hother
        exact ⟨i, hi, ht, Or.inr hdest⟩
    · intro u hu
      rcases mem_append.1 hu with h0 | hother
      · exact Version.mem_tables_of_level h0
      · obtain ⟨i, -, -, hu⟩ := hothers u hother
        exact Version.mem_tables_of_level hu
    · intro i hi
      rw [hids i, Version.listIds, ← map_append] at hi
      exact mem_map.1 hi

omit [LinearOrder K] in
theorem takesTop_of_move (hd : v.DistinctIds) {target : ℕ}
    (hempty : ∀ i, 1 ≤ i → i < target → v.level i = []) :
    v.TakesTop ⟨Version.listIds (v.level 0), target⟩ := by
  refine takesTop_of_l0 hd [] (fun _ ht => nomatch ht) ?_ (by simp)
  intro i hi hlt t ht
  rw [hempty i hi hlt] at ht
  cases ht

omit [LinearOrder K] in
theorem free_of_le_canonicalL1 (h0 : v.levelIsBusy 0 hidden = false)
    (h1 : v.levelIsBusy (canonicalL1 sc v) hidden = false) {i : ℕ} (hi : i ≤ canonicalL1 sc v) :
    v.levelIsBusy i hidden = false := by
  rcases Nat.eq_zero_or_pos i with rfl | hpos
  · exact h0
  · rcases eq_or_lt_of_le hi with rfl | hlt
    · exact h1
    · exact Version.levelIsBusy_of_nil (level_eq_nil_of_lt_canonicalL1 hpos hlt)

theorem mem_of_mem_getOverlapping {run : List T} {r : KeyRange K} {t : T}
    (h : t ∈ getOverlapping run r) : t ∈ run :=
  (dropWhile_suffix _).subset ((List.takeWhile_prefix _).subset h)

variable [RawKey K]

theorem moveToLastLevel_takesTop (hd : v.DistinctIds) (h : moveToLastLevel v = some input) :
    v.TakesTop input := by
  unfold moveToLastLevel at h
  dsimp only at h
  split at h
  case isFalse => cases h
  case isTrue hc =>
    obtain ⟨-, hempty, -⟩ := hc
    cases h
    refine takesTop_of_move hd fun i hi hlt => ?_
    have := all_eq_true.1 hempty i (mem_range.2 hlt)
    simpa [one_le_iff_ne_zero.1 hi] using this

theorem moveToFirstLevel_takesTop (hd : v.DistinctIds)
    (h : moveToFirstLevel sc v hidden = some input) : v.TakesTop input := by
  unfold moveToFirstLevel at h
  dsimp only at h
  split at h
  case isFalse => cases h
  case isTrue =>
    cases h
    exact takesTop_of_move hd fun i hi hlt =>
      level_eq_nil_of_lt_first hi (hlt.trans_le (min_le_left _ _))

/-- What a merge of L0 does to the levels: it takes them from free levels only. -/
structure MergesTop (v : Version T) (hidden : List ℕ) (input : CompactionInput) : Prop where
  takes : v.TakesTop input
  nodup : input.tableIds.Nodup
  free : ∀ i ≤ input.destLevel, v.levelIsBusy i hidden = false

omit [RawKey K] [LinearOrder K] in
theorem intraL0_mergesTop (hd : v.DistinctIds) (h : st.intraL0 v hidden = some input) :
    MergesTop v hidden input := by
  unfold intraL0 at h
  dsimp only at h
  split at h
  case isFalse => cases h
  case isTrue hc =>
    obtain ⟨-, -, hfree⟩ := hc
    cases h
    refine ⟨?_, nodup_dedup _, fun i hi => ?_⟩
    · refine takesTop_of_l0 hd [] (fun _ ht => nomatch ht) ?_ (by simp)
      exact fun i hi hlt => absurd hlt (not_lt_zero i)
    · rw [le_zero.1 hi]
      exact hfree

omit [RawKey K] in
theorem multiLevelMerge_mergesTop (hd : v.DistinctIds)
    (h0 : v.levelIsBusy 0 hidden = false) (h1 : v.levelIsBusy (canonicalL1 sc v) hidden = false)
    (h : st.multiLevelMerge sc v hidden (canonicalL1 sc v) = some input) :
    MergesTop v hidden input := by
  unfold multiLevelMerge at h
  dsimp only at h
  split at h
  case isFalse => cases h
  case isTrue hc =>
    obtain ⟨-, -, -, h2⟩ := hc
    cases h
    refine ⟨takesTop_of_l0 hd ((v.level (canonicalL1 sc v)).flatten ++
      multiLevelPullIn (v.level 0) (v.level (canonicalL1 sc v)) (v.level (canonicalL1 sc v + 1)))
      ?_ ?_ ?_, nodup_dedup _, fun i hi => ?_⟩
    · intro t ht
      rcases mem_append.1 ht with ht | ht
      · exact ⟨_, le_succ _, le_rfl, ht⟩
      · obtain ⟨run, hrun, ht⟩ := mem_flatMap.1 ht
        obtain ⟨r, -, ht⟩ := mem_flatMap.1 ht
        exact ⟨_, le_rfl, le_succ _,
          mem_flatten.2 ⟨run, hrun, mem_of_mem_getOverlapping ht⟩⟩
    · intro i hi hlt t ht
      rcases Nat.lt_succ_iff_lt_or_eq.1 hlt with hlt | rfl
      · rw [level_eq_nil_of_lt_canonicalL1 hi hlt] at ht
        cases ht
      · exact mem_append_left _ ht
    · intro i
      rw [mem_dedup, map_append, ← append_assoc]
      rfl
    · rcases eq_or_lt_of_le hi with rfl | hlt
      · exact h2
      · exact free_of_le_canonicalL1 h0 h1 (Nat.lt_succ_iff.1 hlt)

theorem chooseL0_takesTop (hd : v.DistinctIds) :
    (∀ input, st.chooseL0 sc v hidden = .move input → v.TakesTop input) ∧
      ∀ input, st.chooseL0 sc v hidden = .merge input → MergesTop v hidden input := by
  unfold chooseL0
  dsimp only
  split
  · exact ⟨nofun, nofun⟩
  case isFalse hbusy =>
    rw [Bool.or_eq_true, not_or, Bool.not_eq_true, Bool.not_eq_true] at hbusy
    split
    case h_1 input' hm =>
      refine ⟨nofun, ?_⟩
      rintro input ⟨⟩
      exact multiLevelMerge_mergesTop hd hbusy.1 hbusy.2 hm
    case h_2 =>
      have htop : v.TakesTop ⟨(Version.listIds (v.level 0) ++
          ((v.level (canonicalL1 sc v)).flatMap fun run =>
            getOverlapping run (levelKeyRange (v.level 0))).map TableMeta.id).dedup,
          canonicalL1 sc v⟩ := by
        refine takesTop_of_l0 hd _ (fun t ht => ?_) (fun i hi hlt t ht => ?_)
          (fun i => mem_dedup)
        · obtain ⟨run, hrun, ht⟩ := mem_flatMap.1 ht
          exact ⟨_, le_rfl, le_succ _,
            mem_flatten.2 ⟨run, hrun, mem_of_mem_getOverlapping ht⟩⟩
        · rw [level_eq_nil_of_lt_canonicalL1 hi hlt] at ht
          cases ht
      split
      · refine ⟨?_, nofun⟩
        rintro input ⟨⟩
        exact htop
      · refine ⟨nofun, ?_⟩
        rintro input ⟨⟩
        exact ⟨htop, nodup_dedup _, fun i hi =>
          free_of_le_canonicalL1 hbusy.1 hbusy.2 hi⟩

end Top

section Window

theorem pickMinimalCompaction_takesWindow (ho : v.Ordered) {i : ℕ} (hi : 1 ≤ i) {ids : List ℕ}
    {trivialMove : Bool}
    (h : st.pickMinimalCompaction sc (v.level i) (v.level (i + 1)) hidden = some (ids, trivialMove)) :
    v.TakesWindow hidden i ⟨ids, i + 1⟩ ∧ (trivialMove = false → ids.Nodup) := by
  rcases pickMinimalCompaction_spec h with ⟨htrue, w, hw, rfl⟩ |
    ⟨-, run, hrun, w, hw, r, -, ⟨hne, hfree⟩, rfl⟩
  · obtain ⟨⟨run, hrun, hwin⟩, hfree, -⟩ := trivialWindow_spec hw
    obtain ⟨hne, a, b, hsplit⟩ := shrinkingWindows_split hwin
    have hlevel : ∀ t ∈ w, t ∈ (v.level i).flatten := by
      intro t ht
      refine mem_flatten.2 ⟨run, hrun, ?_⟩
      rw [hsplit]
      exact mem_append_left _ (mem_append_right _ ht)
    refine ⟨⟨hi, rfl, ?_, fun t ht => Or.inl ?_⟩, fun hf => ?_⟩
    · obtain ⟨t, ht⟩ := exists_mem_of_ne_nil w hne
      exact ⟨t, hlevel t ht, isBlocked_eq_false.1 hfree t ht⟩
    · exact hlevel t (ho.ids.mem_inputs _ (fun u hu => Version.mem_tables_of_level (hlevel u hu))
        (fun i hi => mem_map.1 hi) ht)
    · rw [htrue] at hf
      cases hf
  · obtain ⟨-, a, b, hsplit⟩ := growingWindows_split hw
    have hnext : ∀ t ∈ w, t ∈ (v.level (i + 1)).flatten := by
      intro t ht
      refine mem_flatten.2 ⟨run, hrun, ?_⟩
      rw [hsplit]
      exact mem_append_left _ (mem_append_right _ ht)
    have hlevel : ∀ t ∈ (v.level i).flatMap fun run => getContained run r,
        t ∈ (v.level i).flatten := by
      intro t ht
      obtain ⟨run, hrun, ht⟩ := mem_flatMap.1 ht
      exact mem_flatten.2 ⟨run, hrun, getContained_sublist.subset ht⟩
    refine ⟨⟨hi, rfl, ?_, fun t ht => ?_⟩, fun _ => nodup_dedup _⟩
    · obtain ⟨t, ht⟩ := exists_mem_of_ne_nil _ hne
      exact ⟨t, hlevel t ht, isBlocked_eq_false.1 hfree t ht⟩
    · have hmem := ho.ids.mem_inputs
        (w ++ (v.level i).flatMap fun run => getContained run r) ?_ ?_ ht
      · rcases mem_append.1 hmem with hw | hc
        · exact Or.inr (hnext t hw)
        · exact Or.inl (hlevel t hc)
      · intro u hu
        rcases mem_append.1 hu with hw | hc
        · exact Version.mem_tables_of_level (hnext u hw)
        · exact Version.mem_tables_of_level (hlevel u hc)
      · intro j hj
        rw [mem_dedup, ← map_append] at hj
        exact mem_map.1 hj

theorem chooseLevel_takesWindow (ho : v.Ordered) {i : ℕ} (hi : 1 ≤ i) :
    (∀ input, st.chooseLevel sc v hidden i = .move input → v.TakesWindow hidden i input) ∧
      ∀ input, st.chooseLevel sc v hidden i = .merge input →
        v.TakesWindow hidden i input ∧ input.tableIds.Nodup := by
  unfold chooseLevel
  split
  · exact ⟨nofun, nofun⟩
  case h_2 ids trivialMove hpick =>
    obtain ⟨htakes, hnodup⟩ := pickMinimalCompaction_takesWindow ho hi hpick
    split
    · refine ⟨?_, nofun⟩
      rintro input ⟨⟩
      exact htakes
    case isFalse hc =>
      refine ⟨nofun, ?_⟩
      rintro input ⟨⟩
      refine ⟨htakes, hnodup ?_⟩
      -- a level below L0 has one run, so a window that can move is moved
      by_contra htrue
      refine hc ⟨by simpa using htrue, ?_⟩
      obtain ⟨t, ht, -⟩ := htakes.free
      obtain ⟨run, hrun, -⟩ := mem_flatten.1 ht
      have := length_pos_of_mem hrun
      have := ho.single i hi
      omega

end Window

section Choose

variable [RawKey K]

theorem choose_move_takes (ho : v.Ordered)
    (h : st.choose sc v hidden = .move input) :
    v.TakesTop input ∨ ∃ i, v.TakesWindow hidden i input := by
  unfold choose at h
  split at h
  case h_1 input' hm =>
    cases h
    exact Or.inl (moveToLastLevel_takesTop ho.ids hm)
  · split at h
    case h_1 input' hm =>
      cases h
      exact Or.inl (moveToFirstLevel_takesTop ho.ids hm)
    · split at h
      · cases h
      · split_ifs at h with _ hz
        · exact Or.inl ((chooseL0_takesTop ho.ids).1 input h)
        · exact Or.inr ⟨_, (chooseLevel_takesWindow ho (one_le_iff_ne_zero.2 hz)).1 input h⟩

theorem choose_merge_takes (ho : v.Ordered)
    (h : st.choose sc v hidden = .merge input) :
    MergesTop v hidden input ∨ ∃ i, v.TakesWindow hidden i input ∧ input.tableIds.Nodup := by
  unfold choose at h
  split at h
  · cases h
  · split at h
    · cases h
    · split at h
      case h_1 input' hm =>
        cases h
        exact Or.inl (intraL0_mergesTop ho.ids hm)
      · split_ifs at h with _ hz
        · exact Or.inl ((chooseL0_takesTop ho.ids).2 input h)
        · exact Or.inr ⟨_, (chooseLevel_takesWindow ho (one_le_iff_ne_zero.2 hz)).2 input h⟩

end Choose

end Strategy

end LsmTree
