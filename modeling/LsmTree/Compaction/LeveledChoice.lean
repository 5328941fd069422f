import LsmTree.Version.Order

/-! What the leveled strategy can choose. -/
namespace LsmTree

open List

variable {T K : Type*} [LinearOrder K] [TableMeta T K]

def MeetsHull (inputs : List T) (r : KeyRange K) : Prop :=
  (∃ a ∈ inputs, (keyRange a).min ≤ r.max) ∧ ∃ b ∈ inputs, r.min ≤ (keyRange b).max

def InHull (inputs : List T) (r : KeyRange K) : Prop :=
  (∃ a ∈ inputs, (keyRange a).min ≤ r.min) ∧ ∃ b ∈ inputs, r.max ≤ (keyRange b).max

theorem InHull.apart {inputs : List T} {x o : T} (ho : InHull inputs (keyRange o))
    (hx : ¬ MeetsHull inputs (keyRange x)) : Apart x o := by
  refine apart_iff.2 fun h => hx ?_
  obtain ⟨⟨a, ha, hmin⟩, b, hb, hmax⟩ := ho
  exact ⟨⟨a, ha, hmin.trans h.1⟩, b, hb, h.2.trans hmax⟩

theorem not_meetsHull_of_within {inputs : List T} {x r : KeyRange K}
    (hin : ∀ t ∈ inputs, r.min ≤ (keyRange t).min ∧ (keyRange t).max ≤ r.max)
    (hx : x.overlaps r = false) : ¬ MeetsHull inputs x := by
  rintro ⟨⟨a, ha, hmin⟩, b, hb, hmax⟩
  rw [← Bool.not_eq_true, KeyRange.overlaps_iff] at hx
  exact hx ⟨(hin a ha).1.trans hmin, hmax.trans (hin b hb).2⟩

namespace Version

variable {v : Version T}

def inputs (v : Version T) (ids : List ℕ) : List T := v.tables.filter fun t => TableMeta.id t ∈ ids

def HullClear (v : Version T) (input : CompactionInput) : Prop :=
  ∀ x ∈ (v.level input.destLevel).flatten, TableMeta.id x ∉ input.tableIds →
    ¬ MeetsHull (v.inputs input.tableIds) (keyRange x)

structure Ordered (v : Version T) : Prop where
  ids : v.DistinctIds
  runs : ∀ i, ∀ run ∈ v.level i, GoodRun run
  single : ∀ i, 1 ≤ i → (v.level i).length ≤ 1

omit [LinearOrder K] in
theorem mem_tables_of_level {i : ℕ} {t : T} (h : t ∈ (v.level i).flatten) : t ∈ v.tables := by
  unfold level at h
  cases hi : v.levels[i]? with
  | none => simp [hi] at h
  | some runs =>
    rw [hi] at h
    exact mem_tables.2 ⟨i, runs, hi, h⟩

omit [LinearOrder K] in
theorem DistinctIds.eq (h : v.DistinctIds) {t u : T} (ht : t ∈ v.tables) (hu : u ∈ v.tables)
    (hid : TableMeta.id t = TableMeta.id u) : t = u := inj_on_of_nodup_map h ht hu hid

omit [LinearOrder K] in
theorem DistinctIds.mem_inputs (h : v.DistinctIds) {ids : List ℕ} (chosen : List T)
    (hsub : ∀ t ∈ chosen, t ∈ v.tables)
    (hids : ∀ i, i ∈ ids → ∃ t ∈ chosen, TableMeta.id t = i) {t : T} (ht : t ∈ v.inputs ids) :
    t ∈ chosen := by
  obtain ⟨htv, hid⟩ := mem_filter.1 ht
  obtain ⟨u, hu, heq⟩ := hids _ (of_decide_eq_true hid)
  rwa [h.eq htv (hsub u hu) heq.symm]

theorem Ordered.valid (h : v.Ordered) {i : ℕ} {t : T} (ht : t ∈ (v.level i).flatten) :
    Valid t := by
  obtain ⟨run, hrun, htr⟩ := mem_flatten.1 ht
  exact (h.runs i run hrun).valid t htr

theorem Ordered.apart (h : v.Ordered) {i : ℕ} (hi : 1 ≤ i) {x y : T}
    (hx : x ∈ (v.level i).flatten) (hy : y ∈ (v.level i).flatten) (hne : x ≠ y) : Apart x y := by
  refine List.Pairwise.forall (l := (v.level i).flatten) ?_ hx hy hne
  have hlen := h.single i hi
  rcases hl : v.level i with _ | ⟨run, _ | ⟨_, _⟩⟩
  · exact List.Pairwise.nil
  · rw [flatten_singleton]
    exact (h.runs i run (by simp [hl])).sorted.apart
  · simp [hl] at hlen

end Version

theorem eq_of_mem_of_length_le_one {α : Type*} {l : List α} {a b : α} (hl : l.length ≤ 1)
    (ha : a ∈ l) (hb : b ∈ l) : a = b := by
  rcases l with _ | ⟨x, _ | ⟨_, _⟩⟩
  · cases ha
  · rw [mem_singleton.1 ha, mem_singleton.1 hb]
  · simp at hl

section Windows

variable {run w : List T}

omit [TableMeta T K] [LinearOrder K] in
theorem windowsOfSize_split {size : ℕ} (h : w ∈ windowsOfSize (size + 1) run) :
    w ≠ [] ∧ ∃ a b, run = a ++ w ++ b := by
  obtain ⟨i, hi, rfl⟩ := mem_map.1 h
  rw [mem_range] at hi
  constructor
  · intro hnil
    have := congrArg List.length hnil
    simp only [length_take, length_drop, length_nil] at this
    omega
  · refine ⟨run.take i, (run.drop i).drop (size + 1), ?_⟩
    rw [append_assoc, take_append_drop, take_append_drop]

omit [TableMeta T K] [LinearOrder K] in
theorem growingWindows_split (h : w ∈ growingWindows run) : w ≠ [] ∧ ∃ a b, run = a ++ w ++ b := by
  obtain ⟨n, -, hw⟩ := mem_flatMap.1 h
  exact windowsOfSize_split hw

omit [TableMeta T K] [LinearOrder K] in
theorem shrinkingWindows_split (h : w ∈ shrinkingWindows run) :
    w ≠ [] ∧ ∃ a b, run = a ++ w ++ b := by
  obtain ⟨n, -, hw⟩ := mem_flatMap.1 h
  exact windowsOfSize_split hw

theorem GoodRun.window {a b : List T} (h : GoodRun run) (hw : w ≠ []) (hrun : run = a ++ w ++ b) :
    GoodRun w ∧ ∀ r, aggregateRunKeyRange w = some r → ∀ x ∈ run, x ∉ w →
      (keyRange x).overlaps r = false := by
  subst hrun
  have hsub : w.Sublist (a ++ w ++ b) :=
    (sublist_append_right a w).trans (sublist_append_left _ b)
  have hg : GoodRun w :=
    ⟨hw, fun t ht => h.valid t (hsub.subset ht), List.Pairwise.sublist hsub h.sorted⟩
  refine ⟨hg, fun r hr x hx hxw => ?_⟩
  rw [← Bool.not_eq_true, KeyRange.overlaps_iff]
  obtain ⟨haw, hb, hawb⟩ := pairwise_append.1 h.sorted
  obtain ⟨-, -, haw⟩ := pairwise_append.1 haw
  cases w with
  | nil => exact absurd rfl hw
  | cons y w =>
    cases hr
    rcases mem_append.1 hx with hx | hx
    · rcases mem_append.1 hx with hx | hx
      · exact fun ho => absurd ho.1 (not_le.2 (haw x hx y mem_cons_self))
      · exact absurd hx hxw
    · have hlast : (y :: w).getLast (cons_ne_nil y w) ∈ a ++ (y :: w) :=
        mem_append_right _ (getLast_mem _)
      exact fun ho => absurd ho.2 (not_le.2 (hawb _ hlast x hx))

end Windows

/-- Neighbouring tables of one run move to another level, where nothing overlaps them. -/
structure Version.MoveSafe (v : Version T) (input : CompactionInput) (w : List T) : Prop where
  dest : 1 ≤ input.destLevel
  source : ∃ i, i ≠ input.destLevel ∧ ∃ run ∈ v.level i, ∃ a b, run = a ++ w ++ b
  nonempty : w ≠ []
  ids : ∀ i, i ∈ input.tableIds ↔ i ∈ w.map TableMeta.id
  apart : ∀ x ∈ (v.level input.destLevel).flatten, ∀ t ∈ w, Apart x t

theorem Apart.of_within {x t : T} {r : KeyRange K}
    (ht : r.min ≤ (keyRange t).min ∧ (keyRange t).max ≤ r.max)
    (hx : (keyRange x).overlaps r = false) : Apart x t := by
  rw [← Bool.not_eq_true, KeyRange.overlaps_iff] at hx
  exact apart_iff.2 fun h => hx ⟨ht.1.trans h.1, h.2.trans ht.2⟩

namespace Strategy

variable {st : Strategy} {sc : Scoring T} {v : Version T} {hidden : List ℕ}
  {input : CompactionInput}

section Window

variable {runs next : List (List T)} {w pulled : List T} {size : ℕ}

theorem trivialWindow_spec (h : trivialWindow runs next hidden = some w) :
    (∃ run ∈ runs, w ∈ shrinkingWindows run) ∧ isBlocked hidden w = false ∧
      (next = [] ∨ ∀ r, aggregateRunKeyRange w = some r → ∀ run ∈ next,
        getOverlapping run r = []) := by
  have hmem := mem_of_find?_eq_some h
  have hp := find?_some h
  refine ⟨mem_flatMap.1 hmem, ?_⟩
  simp only [Bool.and_eq_true, Bool.not_eq_true', Bool.or_eq_true, List.isEmpty_iff,
    Option.all_eq_true, List.all_eq_true] at hp
  exact hp

theorem pullIn_spec {c : List T × List T × ℕ} (h : pullIn sc runs hidden w = some c) :
    c.1 = w ∧ (c.2.1 ≠ [] ∧ isBlocked hidden c.2.1 = false) ∧ ∃ r, aggregateRunKeyRange w = some r ∧
      c.2.1 = runs.flatMap fun run => getContained run r := by
  unfold pullIn at h
  split at h
  · cases h
  · obtain ⟨r, hr, h⟩ := Option.bind_eq_some_iff.1 h
    dsimp only at h
    split at h
    · cases h
    case isFalse hsize =>
      split at h
      · cases h
      case isFalse hfree =>
        cases h
        refine ⟨rfl, ⟨fun hnil => hsize ?_, Bool.eq_false_iff.2 hfree⟩, r, hr, rfl⟩
        dsimp only at hnil
        rw [hnil, map_nil, sum_nil]

theorem pickMinimalCompaction_spec {ids : List ℕ} {trivialMove : Bool}
    (h : st.pickMinimalCompaction sc runs next hidden = some (ids, trivialMove)) :
    (trivialMove = true ∧ ∃ w, trivialWindow runs next hidden = some w ∧
      ids = w.map TableMeta.id) ∨
    (trivialMove = false ∧ ∃ run ∈ next, ∃ w ∈ growingWindows run, ∃ r,
      aggregateRunKeyRange w = some r ∧
      ((runs.flatMap fun run => getContained run r) ≠ [] ∧
        isBlocked hidden (runs.flatMap fun run => getContained run r) = false) ∧
      ids = (w.map TableMeta.id ++
        (runs.flatMap fun run => getContained run r).map TableMeta.id).dedup) := by
  unfold pickMinimalCompaction at h
  split at h
  case h_1 w hw =>
    cases h
    exact Or.inl ⟨rfl, w, hw, rfl⟩
  case h_2 =>
    split at h
    · cases h
    · obtain ⟨c, hc, heq⟩ := Option.map_eq_some_iff.1 h
      cases heq
      obtain ⟨w, hw, hpull⟩ := mem_filterMap.1 (argmin_mem hc)
      obtain ⟨run, hrun, hwin⟩ := mem_flatMap.1 hw
      obtain ⟨h1, hfree, r, hr, h2⟩ := pullIn_spec hpull
      refine Or.inr ⟨rfl, run, hrun, w, (takeWhile_sublist _).subset hwin, r, hr,
        h2 ▸ hfree, ?_⟩
      rw [h1, h2]

end Window

variable [RawKey K]

theorem moveToLastLevel_safe (ho : v.Ordered) (h : moveToLastLevel v = some input) :
    ∃ w, v.MoveSafe input w := by
  unfold moveToLastLevel at h
  dsimp only at h
  split at h
  case isFalse => cases h
  case isTrue hc =>
    obtain ⟨hlen, -, hover⟩ := hc
    cases h
    obtain ⟨run, hrun⟩ := length_eq_one_iff.1 hlen
    have hg : GoodRun run := ho.runs 0 run (by simp [hrun])
    have hpos : 1 ≤ v.levels.length - 1 := by
      by_contra hlt
      have hzero : v.levels.length - 1 = 0 := by omega
      rw [hzero, ← Bool.not_eq_true, KeyRange.overlaps_iff] at hover
      obtain ⟨t, ht⟩ := exists_mem_of_ne_nil _ hg.nonempty
      have hin := levelKeyRange_contains (ho.runs 0) (t := t) (by simp [hrun, ht])
      have := hin.1.trans ((hg.valid t ht).trans hin.2)
      exact hover ⟨this, this⟩
    refine ⟨run, hpos, ⟨0, Nat.ne_of_lt hpos, run, by simp [hrun], [], [], by simp⟩, hg.nonempty,
      fun i => by simp [Version.listIds, hrun], ?_⟩
    intro x hx t ht
    have hxin := levelKeyRange_contains (ho.runs _) hx
    refine Apart.of_within (levelKeyRange_contains (ho.runs 0) (by simp [hrun, ht])) ?_
    rw [← Bool.not_eq_true, KeyRange.overlaps_iff] at hover ⊢
    exact fun hov => hover ⟨hov.1.trans hxin.2, hxin.1.trans hov.2⟩

variable {target : ℕ} {ids : List ℕ}

theorem moveL0_safe (ho : v.Ordered) (hlen : (v.level 0).length = 1)
    (hids : ∀ i, i ∈ ids ↔ i ∈ Version.listIds (v.level 0))
    (hover : ((v.level target).flatMap fun run =>
      getOverlapping run (levelKeyRange (v.level 0))) = []) :
    ∃ w, v.MoveSafe ⟨ids, target⟩ w := by
  obtain ⟨run, hrun⟩ := length_eq_one_iff.1 hlen
  have hg : GoodRun run := ho.runs 0 run (by simp [hrun])
  have hno : ∀ x ∈ (v.level target).flatten,
      (keyRange x).overlaps (levelKeyRange (v.level 0)) = false := by
    intro x hx
    obtain ⟨r, hr, hxr⟩ := mem_flatten.1 hx
    have hgr := ho.runs target r hr
    have hnil := flatMap_eq_nil_iff.1 hover r hr
    by_contra hov
    have := (mem_getOverlapping hgr.sorted hgr.valid).2 ⟨hxr, by simpa using hov⟩
    rw [hnil] at this
    cases this
  have hpos : target ≠ 0 := by
    rintro rfl
    obtain ⟨t, ht⟩ := exists_mem_of_ne_nil _ hg.nonempty
    have htl : t ∈ (v.level 0).flatten := by simp [hrun, ht]
    have hin := levelKeyRange_contains (ho.runs 0) htl
    have hself := hno t htl
    rw [← Bool.not_eq_true, KeyRange.overlaps_iff] at hself
    exact hself ⟨hin.1.trans (hg.valid t ht), (hg.valid t ht).trans hin.2⟩
  refine ⟨run, Nat.one_le_iff_ne_zero.2 hpos,
    ⟨0, hpos.symm, run, by simp [hrun], [], [], by simp⟩, hg.nonempty, ?_, ?_⟩
  · intro i
    rw [hids i, Version.listIds, hrun, flatten_singleton]
  · intro x hx t ht
    exact Apart.of_within (levelKeyRange_contains (ho.runs 0) (by simp [hrun, ht])) (hno x hx)

theorem moveToFirstLevel_safe (ho : v.Ordered) (h : moveToFirstLevel sc v hidden = some input) :
    ∃ w, v.MoveSafe input w := by
  unfold moveToFirstLevel at h
  dsimp only at h
  split at h
  case isFalse => cases h
  case isTrue hc =>
    obtain ⟨hlen, -, -, -, hover⟩ := hc
    cases h
    exact moveL0_safe ho hlen (fun _ => Iff.rfl) hover

theorem mergeL0_clear (ho : v.Ordered) (htarget : 1 ≤ target)
    (hids : ∀ i, i ∈ ids ↔ i ∈ (Version.listIds (v.level 0) ++
      ((v.level target).flatMap fun run =>
      getOverlapping run (levelKeyRange (v.level 0))).map TableMeta.id)) :
    v.HullClear ⟨ids, target⟩ := by
  set hull := levelKeyRange (v.level 0) with hhull
  -- every input meets the hull of L0, and lies in it or in the target level
  have hover : ∀ run ∈ v.level target, ∀ t, t ∈ getOverlapping run hull ↔
      t ∈ run ∧ (keyRange t).overlaps hull = true := fun run hrun t =>
    mem_getOverlapping (ho.runs target run hrun).sorted (ho.runs target run hrun).valid
  have hinputs : ∀ t ∈ v.inputs ids, t ∈ (v.level 0).flatten ++
      (v.level target).flatMap fun run => getOverlapping run hull := by
    intro t ht
    refine ho.ids.mem_inputs _ ?_ ?_ ht
    · intro u hu
      rcases mem_append.1 hu with hu | hu
      · exact Version.mem_tables_of_level hu
      · obtain ⟨run, hrun, hur⟩ := mem_flatMap.1 hu
        exact Version.mem_tables_of_level
          (mem_flatten.2 ⟨run, hrun, ((hover run hrun u).1 hur).1⟩)
    · intro i hi
      rw [hids i, Version.listIds, ← map_append] at hi
      exact mem_map.1 hi
  have hcases : ∀ t ∈ v.inputs ids, (hull.min ≤ (keyRange t).min ∧ (keyRange t).max ≤ hull.max) ∨
      (t ∈ (v.level target).flatten ∧ (keyRange t).overlaps hull = true) := by
    intro t ht
    rcases mem_append.1 (hinputs t ht) with ht | ht
    · exact Or.inl (levelKeyRange_contains (ho.runs 0) ht)
    · obtain ⟨run, hrun, htr⟩ := mem_flatMap.1 ht
      have := (hover run hrun t).1 htr
      exact Or.inr ⟨mem_flatten.2 ⟨run, hrun, this.1⟩, this.2⟩
  intro x hx hid hmeets
  have hxhull : (keyRange x).overlaps hull = false := by
    by_contra hov
    obtain ⟨run, hrun, hxr⟩ := mem_flatten.1 hx
    refine hid ((hids _).2 (mem_append_right _ (mem_map.2 ⟨x, ?_, rfl⟩)))
    exact mem_flatMap.2 ⟨run, hrun, (hover run hrun x).2 ⟨hxr, by simpa using hov⟩⟩
  have hapart : ∀ t ∈ v.inputs ids, t ∈ (v.level target).flatten → Apart x t := by
    intro t ht htl
    refine ho.apart htarget hx htl ?_
    rintro rfl
    exact hid (of_decide_eq_true (mem_filter.1 ht).2)
  have hvalid : Valid x := ho.valid hx
  rw [← Bool.not_eq_true, KeyRange.overlaps_iff, not_and_or, not_le, not_le] at hxhull
  obtain ⟨⟨a, ha, hamin⟩, b, hb, hbmax⟩ := hmeets
  rcases hxhull with hlt | hlt
  · rcases hcases a ha with hin | ⟨hal, haov⟩
    · exact absurd (hin.1.trans hamin) (not_le.2 hlt)
    · have := (KeyRange.overlaps_iff.1 haov).1
      exact apart_iff.1 (hapart a ha hal) ⟨hamin, hvalid.trans (hlt.le.trans this)⟩
  · rcases hcases b hb with hin | ⟨hbl, hbov⟩
    · exact absurd (hbmax.trans hin.2) (not_le.2 hlt)
    · have := (KeyRange.overlaps_iff.1 hbov).2
      exact apart_iff.1 (hapart b hb hbl) ⟨this.trans (hlt.le.trans hvalid), hbmax⟩

theorem chooseL0_move (ho : v.Ordered) (h : st.chooseL0 sc v hidden = .move input) :
    ∃ w, v.MoveSafe input w := by
  unfold chooseL0 at h
  dsimp only at h
  split at h
  · cases h
  · split at h
    · cases h
    · split at h
      case isTrue hc =>
        cases h
        refine moveL0_safe ho hc.2 ?_ hc.1
        intro i
        rw [mem_dedup, hc.1, map_nil, append_nil]
      case isFalse => cases h

theorem chooseL0_merge (ho : v.Ordered) (h : st.chooseL0 sc v hidden = .merge input) :
    st.multiLevelMerge sc v hidden (canonicalL1 sc v) = some input ∨ input.destLevel = 0 ∨
      v.HullClear input := by
  unfold chooseL0 at h
  dsimp only at h
  split at h
  · cases h
  · split at h
    case h_1 input' hm =>
      cases h
      exact Or.inl hm
    case h_2 =>
      split at h
      · cases h
      · cases h
        rcases Nat.eq_zero_or_pos (canonicalL1 sc v) with hz | hpos
        · exact Or.inr (Or.inl hz)
        · exact Or.inr (Or.inr (mergeL0_clear ho hpos fun i => mem_dedup))

variable {i : ℕ}

omit [RawKey K] in
theorem chooseLevel_move (ho : v.Ordered) (h : st.chooseLevel sc v hidden i = .move input) :
    ∃ w, v.MoveSafe input w := by
  unfold chooseLevel at h
  split at h
  · cases h
  case h_2 ids trivialMove hpick =>
    split at h
    case isFalse => cases h
    case isTrue hc =>
      cases h
      rcases pickMinimalCompaction_spec hpick with ⟨-, w, hw, rfl⟩ | ⟨hfalse, -⟩
      · obtain ⟨⟨run, hrun, hwin⟩, -, hclear⟩ := trivialWindow_spec hw
        obtain ⟨hne, a, b, hsplit⟩ := shrinkingWindows_split hwin
        obtain ⟨hg, -⟩ := (ho.runs i run hrun).window hne hsplit
        refine ⟨w, Nat.le_add_left 1 i, ⟨i, Nat.ne_of_lt (Nat.lt_succ_self i), run, hrun, a, b,
          hsplit⟩, hne, fun _ => Iff.rfl, ?_⟩
        intro x hx t ht
        obtain ⟨nrun, hnrun, hxr⟩ := mem_flatten.1 hx
        rcases hclear with hnil | hclear
        · rw [hnil] at hnrun
          cases hnrun
        · obtain ⟨r, hr⟩ := aggregateRunKeyRange_isSome hne
          have hgn := ho.runs (i + 1) nrun hnrun
          refine Apart.of_within (aggregateRunKeyRange_contains hg.sorted hg.valid hr ht) ?_
          by_contra hov
          have hmem := (mem_getOverlapping hgn.sorted hgn.valid).2 ⟨hxr, by simpa using hov⟩
          rw [hclear r hr nrun hnrun] at hmem
          cases hmem
      · rw [hfalse] at hc
        cases hc.1

omit [RawKey K] in
theorem chooseLevel_merge (ho : v.Ordered) (hi : 1 ≤ i)
    (h : st.chooseLevel sc v hidden i = .merge input) : v.HullClear input := by
  unfold chooseLevel at h
  split at h
  · cases h
  case h_2 ids trivialMove hpick =>
    split at h
    case isTrue => cases h
    case isFalse hc =>
      cases h
      rcases pickMinimalCompaction_spec hpick with ⟨htrue, w, hw, rfl⟩ |
        ⟨-, run, hrun, w, hw, r, hr, -, rfl⟩
      · -- a level below L0 has one run, so a window that can move is moved
        obtain ⟨⟨run, hrun, -⟩, -⟩ := trivialWindow_spec hw
        have hlen := ho.single i hi
        have hpos := length_pos_of_mem hrun
        exact absurd ⟨htrue, by omega⟩ hc
      · obtain ⟨hne, a, b, hsplit⟩ := growingWindows_split hw
        obtain ⟨hg, hout⟩ := (ho.runs (i + 1) run hrun).window hne hsplit
        intro x hx hid
        have hxrun : x ∈ run := by
          obtain ⟨run', hrun', hxr⟩ := mem_flatten.1 hx
          have hone := ho.single (i + 1) (by omega)
          rwa [eq_of_mem_of_length_le_one hone hrun hrun']
        have hxw : x ∉ w := fun hxw => hid
          (mem_dedup.2 (mem_append_left _ (mem_map_of_mem hxw)))
        refine not_meetsHull_of_within (r := r) ?_ (hout r hr x hxrun hxw)
        intro t ht
        have hpick := ho.ids.mem_inputs
          (w ++ (v.level i).flatMap fun run => getContained run r) ?_ ?_ ht
        · rcases mem_append.1 hpick with ht | ht
          · exact aggregateRunKeyRange_contains hg.sorted hg.valid hr ht
          · obtain ⟨crun, hcrun, htc⟩ := mem_flatMap.1 ht
            have hgc := ho.runs i crun hcrun
            exact getContained_contains hgc.sorted hgc.valid htc
        · intro u hu
          rcases mem_append.1 hu with hu | hu
          · refine Version.mem_tables_of_level (i := i + 1) (mem_flatten.2 ⟨run, hrun, ?_⟩)
            rw [hsplit]
            exact mem_append_left _ (mem_append_right _ hu)
          · obtain ⟨crun, hcrun, huc⟩ := mem_flatMap.1 hu
            exact Version.mem_tables_of_level
              (mem_flatten.2 ⟨crun, hcrun, getContained_sublist.subset huc⟩)
        · intro j hj
          rw [mem_dedup, ← map_append] at hj
          exact mem_map.1 hj

theorem choose_move (ho : v.Ordered) (h : st.choose sc v hidden = .move input) :
    ∃ w, v.MoveSafe input w := by
  unfold choose at h
  split at h
  case h_1 input' hm =>
    cases h
    exact moveToLastLevel_safe ho hm
  · split at h
    case h_1 input' hm =>
      cases h
      exact moveToFirstLevel_safe ho hm
    · split at h
      · cases h
      · split_ifs at h
        · exact chooseL0_move ho h
        · exact chooseLevel_move ho h

theorem choose_merge (ho : v.Ordered) (h : st.choose sc v hidden = .merge input) :
    st.multiLevelMerge sc v hidden (canonicalL1 sc v) = some input ∨ input.destLevel = 0 ∨
      v.HullClear input := by
  unfold choose at h
  split at h
  · cases h
  · split at h
    · cases h
    · split at h
      case h_1 input' hm =>
        cases h
        unfold intraL0 at hm
        dsimp only at hm
        split at hm
        · cases hm
          exact Or.inr (Or.inl rfl)
        · cases hm
      · split_ifs at h with _ hz
        · exact chooseL0_merge ho h
        · exact Or.inr (Or.inr (chooseLevel_merge ho (Nat.one_le_iff_ne_zero.2 hz) h))

end Strategy

end LsmTree
