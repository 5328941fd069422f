import LsmTree.Compaction.History
import LsmTree.Compaction.MergeOutputs

/-! The key order of levels and runs over whole histories of flushes and compactions. -/
namespace LsmTree

open List

section Version

variable {T K : Type*} [LinearOrder K] [TableMeta T K]

namespace Version

variable {v : Version T} {ids : List ℕ} {run : List T} {destLevel : ℕ} {back : Bool}

theorem Ordered.levelsInOrder (h : v.Ordered) : v.LevelsInOrder := by
  refine ⟨fun i hi => ?_, fun i run hrun => (h.runs i run hrun).sorted⟩
  have hlen := h.single i hi
  rcases hl : v.level i with _ | ⟨run, _ | ⟨_, _⟩⟩
  · exact List.Pairwise.nil
  · rw [flatten_singleton]
    exact (h.runs i run (by simp [hl])).sorted.apart
  · simp [hl] at hlen

theorem level_replaceTables (i : ℕ) :
    (v.replaceTables ids run destLevel back).level i =
      if i < v.levels.length then replacedLevel ids run destLevel back i (v.level i) else [] := by
  unfold level replaceTables
  dsimp only
  rw [getElem?_mapIdx]
  split
  case isTrue h => simp [getElem?_eq_getElem h]
  case isFalse h => simp [getElem?_eq_none (not_lt.1 h)]

theorem length_replaceTables : (v.replaceTables ids run destLevel back).levels.length =
    v.levels.length := by
  rw [replaceTables, length_mapIdx]

theorem length_withNewL0Run : (v.withNewL0Run run).levels.length = v.levels.length := by
  obtain ⟨_ | ⟨l0, rest⟩⟩ := v
  · rfl
  · rfl

variable {i : ℕ} {x : T}

theorem mem_level_withNewL0Run (h : x ∈ ((v.withNewL0Run run).level i).flatten) :
    x ∈ (v.level i).flatten ∨ i = 0 ∧ x ∈ run := by
  obtain ⟨_ | ⟨l0, rest⟩⟩ := v
  · exact Or.inl h
  · cases i with
    | succ i => exact Or.inl h
    | zero =>
      have hmem := (optimizeRuns_perm (run.map ([·]) ++ l0)).mem_iff.1 h
      rw [flatten_append, mem_append] at hmem
      refine hmem.symm.imp_right fun hx => ⟨rfl, ?_⟩
      obtain ⟨_, hs, hx⟩ := mem_flatten.1 hx
      obtain ⟨t, ht, rfl⟩ := mem_map.1 hs
      rwa [mem_singleton.1 hx]

theorem mem_level_withNewL0Run_of_mem (h : x ∈ (v.level i).flatten) :
    x ∈ ((v.withNewL0Run run).level i).flatten := by
  obtain ⟨_ | ⟨l0, rest⟩⟩ := v
  · exact h
  · cases i with
    | succ i => exact h
    | zero =>
      refine (optimizeRuns_perm (run.map ([·]) ++ l0)).mem_iff.2 ?_
      rw [flatten_append]
      exact mem_append_right _ h

theorem retainRuns_good (ids : List ℕ) {runs : List (List T)} (h : ∀ run ∈ runs, GoodRun run) :
    ∀ run ∈ retainRuns ids runs, GoodRun run := by
  intro run hrun
  obtain ⟨hmem, hne⟩ := mem_filter.1 hrun
  obtain ⟨run', hrun', rfl⟩ := mem_map.1 hmem
  have hsub : (run'.filter fun t => TableMeta.id t ∉ ids).Sublist run' := filter_sublist
  exact ⟨by simpa using hne, fun t ht => (h run' hrun').valid t (hsub.subset ht),
    List.Pairwise.sublist hsub (h run' hrun').sorted⟩

theorem replaceTables_runs (back : Bool) (h : v.Ordered) (hrun : run ≠ [] → GoodRun run)
    (hclear : 1 ≤ destLevel → ∀ x ∈ (v.level destLevel).flatten, TableMeta.id x ∉ ids →
      ∀ t ∈ run, Apart x t) (i : ℕ) :
    (∀ r ∈ (v.replaceTables ids run destLevel back).level i, GoodRun r) ∧
      (1 ≤ i → ((v.replaceTables ids run destLevel back).level i).length ≤ 1) := by
  rw [level_replaceTables]
  split
  case isFalse => exact ⟨nofun, fun _ => Nat.zero_le 1⟩
  case isTrue hlt =>
    have hkept := retainRuns_good ids (h.runs i)
    have hflat : 1 ≤ i → (retainRuns ids (v.level i)).flatten.Pairwise Apart := by
      intro hi
      rw [retainRuns_flatten]
      exact (h.levelsInOrder.1 i hi).filter _
    unfold replacedLevel
    split
    case isFalse => exact ⟨optimizeRuns_good hkept, fun hi => optimizeRuns_single (hflat hi)⟩
    case isTrue hdest =>
      obtain ⟨rfl, hne⟩ := hdest
      have hall : ∀ r ∈ (if back then retainRuns ids (v.level i) ++ [run]
          else run :: retainRuns ids (v.level i)), GoodRun r := by
        intro r hr
        have hr' : r = run ∨ r ∈ retainRuns ids (v.level i) := by
          cases back <;> simpa [or_comm] using hr
        rcases hr' with rfl | hr'
        · exact hrun hne
        · exact hkept r hr'
      refine ⟨optimizeRuns_good hall, fun hi => optimizeRuns_single ?_⟩
      have hnew : (run ++ (retainRuns ids (v.level i)).flatten).Pairwise Apart := by
        refine pairwise_append.2 ⟨(hrun hne).sorted.apart, hflat hi, ?_⟩
        intro t ht x hx
        rw [retainRuns_flatten] at hx
        obtain ⟨hx, hid⟩ := mem_filter.1 hx
        exact (hclear hi x hx (of_decide_eq_true hid) t ht).symm
      cases back with
      | true =>
        refine (List.Perm.pairwise_iff Apart.symm ?_).1 hnew
        simpa using perm_append_comm
      | false => simpa using hnew

variable {w : List T}

omit [LinearOrder K] in
theorem filter_ids_eq {l a b : List T} (hl : l = a ++ w ++ b) (hd : (l.map TableMeta.id).Nodup)
    {ids : List ℕ} (hids : ∀ i, i ∈ ids ↔ i ∈ w.map TableMeta.id) :
    l.filter (fun t => TableMeta.id t ∈ ids) = w := by
  subst hl
  rw [map_append, map_append, nodup_append, nodup_append] at hd
  obtain ⟨⟨-, -, haw⟩, -, hawb⟩ := hd
  have hw : w.filter (fun t => TableMeta.id t ∈ ids) = w :=
    filter_eq_self.2 fun t ht => decide_eq_true ((hids _).2 (mem_map_of_mem ht))
  have ha : a.filter (fun t => TableMeta.id t ∈ ids) = [] := by
    refine filter_eq_nil_iff.2 fun t ht hid => ?_
    exact haw _ (mem_map_of_mem ht) _ ((hids _).1 (of_decide_eq_true hid)) rfl
  have hb : b.filter (fun t => TableMeta.id t ∈ ids) = [] := by
    refine filter_eq_nil_iff.2 fun t ht hid => ?_
    exact hawb _ (mem_append_right _ ((hids _).1 (of_decide_eq_true hid))) _
      (mem_map_of_mem ht) rfl
  rw [filter_append, filter_append, ha, hw, hb, nil_append, append_nil]

omit [LinearOrder K] in
theorem level_infix_tables (i : ℕ) : (v.level i).flatten <:+: v.tables := by
  unfold level tables
  cases hi : v.levels[i]? with
  | none => exact nil_infix
  | some runs =>
    obtain ⟨pre, post, hsplit⟩ := append_of_mem (mem_of_getElem? hi)
    exact ⟨pre.flatten.flatten, post.flatten.flatten, by simp [hsplit]⟩

variable {input : CompactionInput}

theorem MoveSafe.inputs_eq (hd : v.DistinctIds) (hm : v.MoveSafe input w) :
    v.inputs input.tableIds = w := by
  obtain ⟨i, -, run, hrun, a, b, hsplit⟩ := hm.source
  obtain ⟨pre, post, htables⟩ := level_infix_tables (v := v) i
  obtain ⟨rpre, rpost, hruns⟩ := append_of_mem hrun
  refine filter_ids_eq (a := pre ++ rpre.flatten ++ a) (b := b ++ rpost.flatten ++ post) ?_ hd hm.ids
  rw [← htables, hruns, hsplit]
  simp

theorem MoveSafe.goodRun (h : v.Ordered) (hm : v.MoveSafe input w) : GoodRun w := by
  obtain ⟨i, -, run, hrun, a, b, hsplit⟩ := hm.source
  exact ((h.runs i run hrun).window hm.nonempty hsplit).1

end Version

end Version

variable {K V : Type*} [LinearOrder K] [RawKey K] [Inhabited V]

namespace TreeState

variable {s s' : TreeState K V}

def MergeClear (v : Version (Table K V)) (r : RunningMerge K V) : Prop :=
  1 ≤ r.destLevel → ∀ x ∈ (v.level r.destLevel).flatten, x.id ∉ r.tableIds →
    ¬ MeetsHull r.inputs x.keyRange

structure Invariant (s : TreeState K V) : Prop where
  sound : s.version.Sound
  ids : (s.knownTables.map (·.id)).Nodup
  outputs : ∀ r ∈ s.running, GoodOutputs r.inputs r.outputs
  clear : ∀ r ∈ s.running, MergeClear s.version r

/-- The entering tables stay out of the hulls of the merges that run into the same level. -/
def Avoids (running : List (RunningMerge K V)) (destLevel : ℕ) (entering : List (Table K V)) :
    Prop :=
  ∀ r ∈ running, r.destLevel = destLevel → ∀ t ∈ entering, ¬ MeetsHull r.inputs t.keyRange

/-- The outputs hold entries, or are one table of tombstones in order and in the hull of the inputs.
-/
def OutputsInOrder (v : Version (Table K V)) (p : CompactionPayload K V) : Prop :=
  ∀ jobs, p.jobs v = some jobs → NoTombstoneOnlyOutput jobs ∨
    ∃ t, jobs.flatMap (·.outputs) = [t] ∧ t.WF ∧ InHull (v.inputs p.tableIds) t.keyRange

/-- The steps that keep levels in order: no table of tombstones alone is out of order, a
multi-level merge leaves no gap over a table it does not take, and no table enters the hull
of a merge that runs into its level. -/
def Clean (st : Strategy) (s : TreeState K V) : TreeAction K V → Prop
  | .flush o sealed =>
    TombstoneOnlyWF o.outputFull o.registered (o.items sealed) (FlushOptions.rangeTombstones sealed)
  | .compact sc o =>
    match st.choose sc s.version s.hiddenSet with
    | .doNothing => True
    | .move input => Avoids s.running input.destLevel (s.version.inputs input.tableIds)
    | .merge input =>
      (st.multiLevelMerge sc s.version s.hiddenSet (Strategy.canonicalL1 sc s.version) =
        some input → s.version.HullClear input) ∧
      OutputsInOrder s.version
        { o with tableIds := input.tableIds, destLevel := input.destLevel }
  | .install i =>
    ∀ r, s.running[i]? = some r → Avoids (s.running.eraseIdx i) r.destLevel r.outputs
  | .abort _ => True

section Step

variable {st : Strategy}

omit [LinearOrder K] [RawKey K] [Inhabited V] in
theorem ids_nodup_of_subperm {l l' : List (Table K V)} (h : l.Subperm l')
    (hd : (l'.map (·.id)).Nodup) : (l.map (·.id)).Nodup := by
  obtain ⟨m, hperm, hsub⟩ := h
  exact ((hperm.map _).nodup_iff).1 (hd.sublist (hsub.map _))

variable {ids : List ℕ} {run : List (Table K V)} {destLevel : ℕ} {back : Bool}

variable {v : Version (Table K V)} {i : ℕ} {x : Table K V}

omit [RawKey K] [Inhabited V] in
theorem mem_level_replaceTables (h : x ∈ ((v.replaceTables ids run destLevel back).level i).flatten) :
    (x ∈ (v.level i).flatten ∧ x.id ∉ ids) ∨ (i = destLevel ∧ x ∈ run) := by
  rw [Version.level_replaceTables] at h
  split at h
  case isFalse => cases h
  case isTrue =>
    rcases mem_append.1 ((Version.replacedLevel_perm _ _).mem_iff.1 h) with h | h
    · split at h
      case isTrue hi => exact Or.inr ⟨hi, h⟩
      case isFalse => cases h
    · obtain ⟨hx, hid⟩ := mem_filter.1 h
      exact Or.inl ⟨hx, of_decide_eq_true hid⟩

omit [RawKey K] [Inhabited V] in
theorem mem_level_replaceTables_of_mem (h : x ∈ (v.level i).flatten) (hid : x.id ∉ ids) :
    x ∈ ((v.replaceTables ids run destLevel back).level i).flatten := by
  rw [Version.level_replaceTables]
  split
  case isFalse hlen =>
    rw [Version.level, getElem?_eq_none (not_lt.1 hlen)] at h
    cases h
  case isTrue =>
    refine (Version.replacedLevel_perm _ _).mem_iff.2 (mem_append_right _ ?_)
    exact mem_filter.2 ⟨h, decide_eq_true hid⟩

omit [RawKey K] [Inhabited V] in
theorem replaceTables_subperm :
    (v.replaceTables ids run destLevel back).tables.Subperm
      (run ++ v.tables.filter fun t => t.id ∉ ids) := by
  refine Version.replaceTables_perm.subperm.trans ((subperm_append_right _).2 ?_)
  -- a target level that does not exist loses the entering tables
  split
  · exact List.Subperm.refl _
  · exact nil_subperm

omit [RawKey K] [Inhabited V] in
theorem Invariant.replace {running : List (RunningMerge K V)} (h : s.Invariant)
    (hsub : ∀ r ∈ running, r ∈ s.running) (hwf : ∀ t ∈ run, t.WF) (hsorted : SortedRun run)
    (hclear : 1 ≤ destLevel → ∀ x ∈ (s.version.level destLevel).flatten, x.id ∉ ids →
      ∀ t ∈ run, Apart x t)
    (havoid : Avoids running destLevel run)
    (hids : (((⟨s.version.replaceTables ids run destLevel back, running⟩ :
      TreeState K V).knownTables).map (·.id)).Nodup) :
    (⟨s.version.replaceTables ids run destLevel back, running⟩ : TreeState K V).Invariant := by
  have hgood : run ≠ [] → GoodRun run := fun hne => ⟨hne, fun t ht => (hwf t ht).valid, hsorted⟩
  have hruns := Version.replaceTables_runs back h.sound.toOrdered hgood hclear
  have hdistinct : (s.version.replaceTables ids run destLevel back).DistinctIds := by
    refine ids_nodup_of_subperm (List.Sublist.subperm ?_) hids
    exact sublist_append_left _ _
  refine ⟨⟨⟨hdistinct, fun i => (hruns i).1, fun i => (hruns i).2⟩, ?_⟩, hids,
    fun r hr => h.outputs r (hsub r hr), ?_⟩
  · intro t ht
    rcases Version.mem_tables_replaceTables.1 ht with ⟨ht, -⟩ | ⟨-, ht⟩
    · exact h.sound.wf t ht
    · exact hwf t ht
  · intro r hr hpos x hx hid
    rcases mem_level_replaceTables hx with ⟨hx, -⟩ | ⟨hdest, hx⟩
    · exact h.clear r (hsub r hr) hpos x hx hid
    · exact havoid r hr hdest x hx

omit [RawKey K] [Inhabited V] in
theorem Invariant.move {input : CompactionInput} {w : List (Table K V)} (h : s.Invariant)
    (hm : s.version.MoveSafe input w)
    (havoid : Avoids s.running input.destLevel (s.version.inputs input.tableIds)) :
    (s.move input).Invariant := by
  unfold TreeState.move
  split
  · exact h
  · have hw := hm.inputs_eq h.sound.ids
    have hg := hm.goodRun h.sound.toOrdered
    have hmem : ∀ t ∈ w, t ∈ s.version.tables := by
      intro t ht
      rw [← hw] at ht
      exact (mem_filter.1 ht).1
    unfold Version.withMoved
    rw [hw] at havoid
    change (⟨s.version.replaceTables _ (s.version.inputs input.tableIds) _ _, s.running⟩ :
      TreeState K V).Invariant
    rw [hw]
    refine h.replace (fun r hr => hr) (fun t ht => h.sound.wf t (hmem t ht)) hg.sorted
      (fun _ x hx _ t ht => hm.apart x hx t ht) havoid ?_
    refine ids_nodup_of_subperm ?_ h.ids
    refine (subperm_append_right _).2 (replaceTables_subperm.trans ?_)
    have hsplit := filter_append_perm
      (fun t : Table K V => decide (t.id ∈ input.tableIds)) s.version.tables
    have hrest : (s.version.tables.filter fun t => !decide (t.id ∈ input.tableIds)) =
        s.version.tables.filter fun t => decide (t.id ∉ input.tableIds) :=
      filter_congr fun t _ => by simp
    have hfilter : (s.version.tables.filter fun t => decide (t.id ∈ input.tableIds)) = w := hw
    rw [hrest, hfilter] at hsplit
    exact hsplit.subperm

omit [RawKey K] [Inhabited V] in
theorem flush_items_sorted (o : FlushOptions K V) (sealed : List (Memtable K V)) :
    KeySorted (o.items sealed) := by
  refine StreamConfig.compactionStream_sorted (mergeAll_keySorted ?_)
  intro r hr
  obtain ⟨m, -, rfl⟩ := mem_map.1 hr
  exact m.sorted.imp InternalValue.le_key.1

omit [RawKey K] [Inhabited V] in
theorem Invariant.withNewL0Run {tables : List (Table K V)} (h : s.Invariant)
    (hfresh : s.Fresh tables) (hwf : ∀ t ∈ tables, t.WF) :
    ({ s with version := s.version.withNewL0Run tables } : TreeState K V).Invariant := by
  obtain ⟨⟨levels⟩, running⟩ := s
  cases levels with
  | nil => exact h
  | cons l0 rest =>
    have hlevel : ∀ i, 1 ≤ i → (Version.withNewL0Run ⟨l0 :: rest⟩ tables).level i =
        Version.level ⟨l0 :: rest⟩ i := by
      rintro (_ | i) hi
      · cases hi
      · rfl
    have hzero : (Version.withNewL0Run ⟨l0 :: rest⟩ tables).level 0 =
        optimizeRuns (tables.map ([·]) ++ l0) := rfl
    have hperm : (Version.withNewL0Run ⟨l0 :: rest⟩ tables).tables.Perm
        (tables ++ Version.tables ⟨l0 :: rest⟩) := Version.withNewL0Run_perm (cons_ne_nil _ _)
    have hids : (((⟨Version.withNewL0Run ⟨l0 :: rest⟩ tables, running⟩ :
        TreeState K V).knownTables).map (·.id)).Nodup := by
      refine ids_nodup_of_subperm (List.Perm.subperm ?_) hfresh
      refine (hperm.append_right _).trans ?_
      rw [append_assoc]
      exact perm_append_comm
    have hgood : ∀ run ∈ tables.map ([·]) ++ l0, GoodRun run := by
      intro run hrun
      rcases mem_append.1 hrun with hrun | hrun
      · obtain ⟨t, ht, rfl⟩ := mem_map.1 hrun
        exact GoodRun.singleton (hwf t ht).valid
      · exact h.sound.runs 0 run hrun
    refine ⟨⟨⟨?_, ?_, ?_⟩, ?_⟩, hids, h.outputs, ?_⟩
    · exact ids_nodup_of_subperm (sublist_append_left _ _).subperm hids
    · rintro (_ | i) run hrun
      · exact optimizeRuns_good hgood run (hzero ▸ hrun)
      · rw [hlevel (i + 1) (by omega)] at hrun
        exact h.sound.runs (i + 1) run hrun
    · intro i hi
      rw [hlevel i hi]
      exact h.sound.single i hi
    · intro t ht
      rcases mem_append.1 (hperm.mem_iff.1 ht) with ht | ht
      · exact hwf t ht
      · exact h.sound.wf t ht
    · intro r hr hpos x hx
      rw [hlevel _ hpos] at hx
      exact h.clear r hr hpos x hx

theorem Invariant.flush {o : FlushOptions K V} {sealed : List (Memtable K V)} (h : s.Invariant)
    (hfresh : s.Fresh (o.tables sealed))
    (hto : TombstoneOnlyWF o.outputFull o.registered (o.items sealed) (FlushOptions.rangeTombstones sealed)) :
    ({ s with version := s.version.withNewL0Run (o.tables sealed) } : TreeState K V).Invariant :=
  h.withNewL0Run hfresh (writeAll_flush (flush_items_sorted o sealed) hto)

theorem Invariant.startMerge {p : CompactionPayload K V} (h : s.Invariant)
    (hclear : 1 ≤ p.destLevel → s.version.HullClear ⟨p.tableIds, p.destLevel⟩)
    (hout : OutputsInOrder s.version p) (hs : s.startMerge p = some s') : s'.Invariant := by
  unfold TreeState.startMerge at hs
  split at hs
  · cases hs
    exact h
  · split at hs
    · cases hs
      exact h
    case h_2 r hr =>
      split at hs
      case isFalse => cases hs
      case isTrue hfresh =>
        cases hs
        obtain ⟨jobs, hjobs, rfl⟩ := Option.map_eq_some_iff.1 hr
        obtain ⟨hgood, hpair⟩ := CompactionPayload.jobs_spec h.sound hjobs
        have houtputs : GoodOutputs (s.version.inputs p.tableIds)
            (jobs.flatMap (·.outputs)) := by
          rcases hout jobs hjobs with hno | ⟨t, ht, hwf, hhull⟩
          · exact goodOutputs_of_jobs hgood hpair hno
          · rw [ht]
            exact ⟨pairwise_singleton _ _, by simpa using hwf, by simpa using hhull⟩
        refine ⟨h.sound, ?_, ?_, ?_⟩
        · refine ids_nodup_of_subperm (List.Perm.subperm ?_) hfresh
          simp [knownTables, flatMap_append, ← append_assoc]
        · intro r hr
          rcases mem_append.1 hr with hr | hr
          · exact h.outputs r hr
          · rw [mem_singleton.1 hr]
            exact houtputs
        · intro r hr
          rcases mem_append.1 hr with hr | hr
          · exact h.clear r hr
          · rw [mem_singleton.1 hr]
            exact fun hpos x hx hid => hclear hpos x hx hid

omit [RawKey K] [Inhabited V] in
theorem Invariant.install {r : RunningMerge K V} (h : s.Invariant) (hr : s.running[i]? = some r)
    (havoid : Avoids (s.running.eraseIdx i) r.destLevel r.outputs) :
    (⟨s.version.withMerge r.tableIds r.outputs r.destLevel, s.running.eraseIdx i⟩ :
      TreeState K V).Invariant := by
  have hmem := mem_of_getElem? hr
  have hgood := h.outputs r hmem
  refine h.replace (fun r' hr' => mem_of_mem_eraseIdx hr') hgood.wf hgood.sorted
    (fun hpos x hx hid t ht => (hgood.hull t ht).apart (h.clear r hmem hpos x hx hid)) havoid ?_
  -- the outputs change places: from the running merge into the version
  refine ids_nodup_of_subperm ?_ h.ids
  obtain ⟨hlt, rfl⟩ := List.getElem?_eq_some_iff.1 hr
  have hperm : (s.running.flatMap (·.outputs)).Perm
      ((s.running[i]).outputs ++ (s.running.eraseIdx i).flatMap (·.outputs)) := by
    have := ((getElem_cons_eraseIdx_perm hlt).flatMap_right
      (fun r : RunningMerge K V => r.outputs)).symm
    simpa using this
  unfold knownTables
  refine List.Subperm.trans ?_ (hperm.append_left _).symm.subperm
  rw [← append_assoc]
  refine (subperm_append_right _).2 (replaceTables_subperm.trans ?_)
  exact perm_append_comm.subperm.trans
    ((subperm_append_right _).2 filter_sublist.subperm)

theorem Invariant.step {a : TreeAction K V} (h : s.Invariant) (hc : Clean st s a)
    (hs : TreeState.step st s a = some s') : s'.Invariant := by
  cases a with
  | flush o sealed =>
    simp only [TreeState.step] at hs
    split at hs
    case isTrue hfresh =>
      cases hs
      exact h.flush hfresh hc
    case isFalse => cases hs
  | compact sc o =>
    simp only [TreeState.step, Clean] at hs hc
    cases hchoice : st.choose sc s.version s.hiddenSet with
    | doNothing =>
      rw [hchoice] at hs
      cases hs
      exact h
    | move input =>
      rw [hchoice] at hs hc
      cases hs
      obtain ⟨w, hw⟩ := Strategy.choose_move h.sound.toOrdered hchoice
      exact h.move hw hc
    | merge input =>
      rw [hchoice] at hs hc
      refine h.startMerge ?_ hc.2 hs
      intro hpos
      rcases Strategy.choose_merge h.sound.toOrdered hchoice with hm | hz | hclear
      · exact hc.1 hm
      · exact absurd hpos (by simp [hz])
      · exact hclear
  | install i =>
    obtain ⟨r, hr, rfl⟩ := Option.map_eq_some_iff.1 hs
    exact h.install hr (hc r hr)
  | abort i =>
    obtain ⟨r, -, rfl⟩ := Option.map_eq_some_iff.1 hs
    have hsub : ∀ r ∈ s.running.eraseIdx i, r ∈ s.running :=
      fun r hr => mem_of_mem_eraseIdx hr
    refine ⟨h.sound, ?_, fun r hr => h.outputs r (hsub r hr), fun r hr => h.clear r (hsub r hr)⟩
    refine ids_nodup_of_subperm (List.Sublist.subperm ?_) h.ids
    exact ((eraseIdx_sublist _ _).flatMap _).append_left _

omit [RawKey K] [Inhabited V] in
theorem initial_invariant (levelCount : ℕ) : (initial levelCount : TreeState K V).Invariant := by
  have hlevel : ∀ i, (Version.mk (List.replicate levelCount ([] : List (List (Table K V))))).level i
      = [] := by
    intro i
    unfold Version.level
    rw [getElem?_replicate]
    split <;> rfl
  have htables : (Version.mk (List.replicate levelCount ([] : List (List (Table K V))))).tables
      = [] := by
    simp [Version.tables]
  refine ⟨⟨⟨?_, ?_, ?_⟩, ?_⟩, ?_, fun _ h => absurd h not_mem_nil, fun _ h => absurd h not_mem_nil⟩
  · simp [initial, Version.DistinctIds, htables]
  · intro i run hrun
    rw [initial, hlevel] at hrun
    cases hrun
  · intro i _
    rw [initial, hlevel]
    exact Nat.zero_le 1
  · intro t ht
    rw [initial, htables] at ht
    cases ht
  · simp [initial, knownTables, htables]

end Step

/-- Along any history whose steps are clean, the levels and runs of the version are in order. -/
theorem run_levelsInOrder {st : Strategy} {levelCount : ℕ} {actions : List (TreeAction K V)}
    {s : TreeState K V} (h : Transition.Run (step st) (Clean st) (initial levelCount) actions s) :
    s.version.LevelsInOrder :=
  (h.invariant (fun _ _ _ hi hc hs => Invariant.step hi hc hs)
    (initial_invariant levelCount)).sound.toOrdered.levelsInOrder

section Example

def put (key : Byte) (seqno : ℕ) : InternalValue (List Byte) ℕ := ⟨[key], seqno, .value, 0⟩

def flushOne (id : ℕ) (entries : List (InternalValue (List Byte) ℕ))
    (sorted : entries.Pairwise fun a b => InternalValue.le a b = true) : TreeAction (List Byte) ℕ :=
  .flush ⟨0, none, fun _ _ => false, fun n => id + n, List.length⟩ [⟨entries, [], sorted⟩]

def flushPut (id : ℕ) (b : Byte) (seqno : ℕ) : TreeAction (List Byte) ℕ :=
  flushOne id [put b seqno] (List.pairwise_singleton _ _)

def compactL0 (id : ℕ) (needNewL1 l1ExceedsOne : Bool) : TreeAction (List Byte) ℕ :=
  .compact ⟨fun _ => 1, needNewL1, 0, true, l1ExceedsOne⟩
    ⟨[], 0, 0, none, 1, false, fun _ _ _ => false, fun _ n => id + n, List.length⟩

/-- `c` and `g` lie in L6, `f` to `h` in L5 and `a` twice in L0 when L5 exceeds its target:
the multi-level merge takes `g` along and leaves `c`. -/
def gapHistory : List (TreeAction (List Byte) ℕ) :=
  [flushPut 1 99 1, compactL0 0 true false,
   flushPut 2 103 2, compactL0 0 true false,
   flushOne 3 [put 102 3, put 104 3] (by decide), compactL0 0 true false,
   flushPut 4 97 4, flushPut 5 97 5,
   compactL0 6 false true, .install 0]

def gapLevels : Version (Table (List Byte) ℕ) :=
  ⟨[[], [], [], [], [], [],
    [[⟨6, ⟨[97], [104]⟩, [put 97 5, put 97 4, put 102 3, put 103 2, put 104 3], []⟩],
      [⟨1, ⟨[99], [99]⟩, [put 99 1], []⟩]]]⟩

theorem gapHistory_overlaps : ∃ s, Transition.Run (step ⟨1, 1, true⟩) (fun _ _ => True)
    (initial 7) gapHistory s ∧ ¬ s.version.LevelsInOrder := by
  have hexec : (Transition.exec (step ⟨1, 1, true⟩) (initial 7) gapHistory).any (fun s =>
      decide (s.version = gapLevels)) = true := by decide +kernel
  obtain ⟨s, hs, hversion⟩ := (Option.any_eq_true _ _).1 hexec
  refine ⟨s, Transition.run_of_exec hs, ?_⟩
  rw [of_decide_eq_true hversion]
  rintro ⟨h, -⟩
  have hlast := h 6 (by decide)
  revert hlast
  decide

/-- A second write of `a` is merged into the last level, over the first. -/
def rewriteHistory : List (TreeAction (List Byte) ℕ) :=
  [flushPut 1 97 1, compactL0 0 false false,
   flushPut 2 97 2, compactL0 3 false false, .install 0]

theorem rewriteHistory_levelsInOrder : ∃ s, Transition.Run (step ⟨1, 1, true⟩) (Clean ⟨1, 1, true⟩)
    (initial 7) rewriteHistory s ∧ s.version.LevelsInOrder := by
  suffices h : Transition.Run (step ⟨1, 1, true⟩) (Clean ⟨1, 1, true⟩) (initial 7) rewriteHistory
      ⟨⟨[[], [], [], [], [], [], [[⟨3, ⟨[97], [97]⟩, [put 97 2, put 97 1], []⟩]]]⟩, []⟩ from
    ⟨_, h, run_levelsInOrder h⟩
  refine .cons rfl (tombstoneOnlyWF_of_windows rfl) (.cons rfl ?_
    (.cons rfl (tombstoneOnlyWF_of_windows rfl) (.cons rfl ?_ (.cons rfl ?_ (.nil _)))))
  · nofun
  · refine ⟨nofun, ?_⟩
    rintro jobs ⟨⟩
    refine Or.inl fun j hj w hw hnil => ?_
    rw [mem_singleton.1 hj] at hw ⊢
    rfl
  · rintro r ⟨⟩
    nofun

end Example

end TreeState

end LsmTree
