import LsmTree.Compaction.LevelOrder
import LsmTree.Compaction.LeveledSources
import LsmTree.Compaction.Provenance
import LsmTree.Ingestion

/-! Sequence numbers from level to level. -/
namespace LsmTree

open List Nat

variable {K V : Type*} [LinearOrder K]

namespace Table

def Newer (t u : Table K V) : Prop := ∀ x ∈ t.seqnos, ∀ y ∈ u.seqnos, y < x

/-- For each key they share, every sequence number is greater than every one of the other table. -/
def Above (t u : Table K V) : Prop :=
  ∀ e ∈ t.entries, ∀ f ∈ u.entries, e.userKey = f.userKey → f.seqno < e.seqno

omit [LinearOrder K] in
theorem seqno_mem {t : Table K V} {e : InternalValue K V} (h : e ∈ t.entries) : e.seqno ∈ t.seqnos :=
  mem_append_left _ (mem_map_of_mem h)

omit [LinearOrder K] in
theorem Newer.above {t u : Table K V} (h : t.Newer u) : t.Above u :=
  fun _ he _ hf _ => h _ (seqno_mem he) _ (seqno_mem hf)

end Table

/-- For every key and any two levels, each sequence number of the upper level is greater than each
one of the lower level. -/
def Version.SeqnosDescend (v : Version (Table K V)) : Prop :=
  ∀ i j, i < j → ∀ t ∈ (v.level i).flatten, ∀ u ∈ (v.level j).flatten, t.Above u

/-- A tree and a bound above all sequence numbers that were flushed or ingested. -/
structure NumberedTree (K V : Type*) where
  tree : TreeState K V
  seqno : ℕ

inductive NumberedAction (K V : Type*) [LinearOrder K] where
  | tree (a : TreeAction K V)
  | ingest (ing : Ingestion K V) (globalSeqno : ℕ)

namespace NumberedTree

def brings : NumberedAction K V → List ℕ
  | .tree (.flush _ sealed) => sealed.flatMap Memtable.seqnos
  | .ingest _ globalSeqno => [globalSeqno]
  | _ => []

def initial (levelCount : ℕ) : NumberedTree K V := ⟨TreeState.initial levelCount, 0⟩

variable [RawKey K] [Inhabited V]

def treeStep (st : Strategy) (s : TreeState K V) : NumberedAction K V → Option (TreeState K V)
  | .tree a => s.step st a
  | .ingest ing globalSeqno =>
    if s.Fresh (ing.tables globalSeqno) then
      some { s with version := s.version.withNewL0Run (ing.tables globalSeqno) }
    else none

/-- Memtables are written in order, and an ingestion finds everything before it flushed. -/
def step (st : Strategy) (s : NumberedTree K V) (a : NumberedAction K V) :
    Option (NumberedTree K V) :=
  if ∀ x ∈ brings a, s.seqno ≤ x then
    (treeStep st s.tree a).map fun tree =>
      ⟨tree, (brings a).foldl (fun n x => max n (x + 1)) s.seqno⟩
  else none

/-- The entry keeps the key, and the sequence number except in the last level. -/
def GoesBack (v : Version (Table K V)) (ids : List ℕ) (destLevel : ℕ) (e : InternalValue K V) : Prop :=
  ∃ l ≤ destLevel, (l = 0 ∨ destLevel ≤ l + 1) ∧ ∃ u ∈ (v.level l).flatten, u.id ∈ ids ∧
    ∃ f ∈ u.entries, f.userKey = e.userKey ∧
      (e.seqno = f.seqno ∨ destLevel + 1 = v.levels.length ∧ e.seqno = 0)

/-- The entry fits between what the tables left in the other levels below L0 hold for its key. -/
def FitsBetween (v : Version (Table K V)) (ids : List ℕ) (destLevel : ℕ) (e : InternalValue K V) :
    Prop :=
  ∀ i, 1 ≤ i → ∀ u ∈ (v.level i).flatten, u.id ∉ ids → ∀ f ∈ u.entries, f.userKey = e.userKey →
    (i < destLevel → e.seqno < f.seqno) ∧ (destLevel < i → f.seqno < e.seqno)

def TakesL0 (v : Version (Table K V)) (ids : List ℕ) : Prop := ∃ t ∈ (v.level 0).flatten, t.id ∈ ids

structure Replaces (v : Version (Table K V)) (ids : List ℕ) (run : List (Table K V)) (destLevel : ℕ) :
    Prop where
  entries : 1 ≤ destLevel → ∀ t ∈ run, ∀ e ∈ t.entries,
    GoesBack v ids destLevel e ∨ FitsBetween v ids destLevel e
  seqnos : ∀ t ∈ run, ∀ x ∈ t.seqnos, ∃ l ≤ destLevel, ∃ u ∈ (v.level l).flatten, u.id ∈ ids ∧
    ∃ y ∈ u.seqnos, x = y ∨ destLevel + 1 = v.levels.length ∧ x = 0
  between : TakesL0 v ids → ∀ i, 1 ≤ i → i < destLevel → ∀ t ∈ (v.level i).flatten, t.id ∈ ids
  newer : TakesL0 v ids → ∀ t ∈ (v.level 0).flatten, t.id ∉ ids → ∀ u ∈ run, t.Newer u

/-- L0 is newer than all levels below, and these descend key by key. -/
structure Descending (v : Version (Table K V)) : Prop where
  top : ∀ t ∈ (v.level 0).flatten, ∀ j, 1 ≤ j → ∀ u ∈ (v.level j).flatten, t.Newer u
  below : ∀ i j, 1 ≤ i → i < j → ∀ t ∈ (v.level i).flatten, ∀ u ∈ (v.level j).flatten, t.Above u

section Replace

variable {v : Version (Table K V)} {ids : List ℕ} {run : List (Table K V)} {destLevel : ℕ}
  {back : Bool}

omit [RawKey K] [Inhabited V]

omit [LinearOrder K] in
theorem Descending.seqnosDescend (h : Descending v) : v.SeqnosDescend := by
  intro i j hij t ht u hu
  rcases Nat.eq_zero_or_pos i with rfl | hpos
  · exact (h.top t ht j (by omega) u hu).above
  · exact h.below i j hpos hij t ht u hu

omit [LinearOrder K] in
theorem lt_length_of_mem_level {j : ℕ} {u : Table K V} (h : u ∈ (v.level j).flatten) :
    j < v.levels.length := by
  by_contra hle
  rw [Version.level, getElem?_eq_none (not_lt.1 hle)] at h
  cases h

theorem above_of_same_level (hs : v.Sound) {i : ℕ} (hi : 1 ≤ i) {t u : Table K V}
    (ht : t ∈ (v.level i).flatten) (hu : u ∈ (v.level i).flatten) (hne : t ≠ u)
    {e f : InternalValue K V} (he : e ∈ t.entries) (hf : f ∈ u.entries) : e.userKey ≠ f.userKey := by
  intro hk
  have hapart := apart_iff.1 (hs.apart hi ht hu hne)
  have hte := (hs.wf t (Version.mem_tables_of_level ht)).bounds e he
  have huf := (hs.wf u (Version.mem_tables_of_level hu)).bounds f hf
  exact hapart ⟨huf.1.trans (hk ▸ hte.2), hte.1.trans (hk ▸ huf.2)⟩

theorem Replaces.top (hr : Replaces v ids run destLevel) (hd : Descending v) :
    ∀ t ∈ ((v.replaceTables ids run destLevel back).level 0).flatten, ∀ j, 1 ≤ j →
      ∀ u ∈ ((v.replaceTables ids run destLevel back).level j).flatten, t.Newer u := by
  intro t ht' j hj u hu'
  rcases TreeState.mem_level_replaceTables ht' with ⟨ht, htid⟩ | ⟨hdest, ht⟩
  · rcases TreeState.mem_level_replaceTables hu' with ⟨hu, -⟩ | ⟨rfl, hu⟩
    · exact hd.top t ht j hj u hu
    · by_cases htakes : TakesL0 v ids
      · exact hr.newer htakes t ht htid u hu
      · -- the inputs lie below L0
        intro x hx y hy
        obtain ⟨l, -, w, hw, hwid, z, hz, hyz⟩ := hr.seqnos u hu y hy
        have hl : 1 ≤ l := by
          refine one_le_iff_ne_zero.2 ?_
          rintro rfl
          exact htakes ⟨w, hw, hwid⟩
        have hlt := hd.top t ht l hl w hw x hx z hz
        omega
  · rcases TreeState.mem_level_replaceTables hu' with ⟨hu, -⟩ | ⟨hdest', -⟩
    · -- an output in L0 has the numbers of its inputs there, and L0 is not the last level
      intro x hx y hy
      obtain ⟨l, hl, w, hw, -, z, hz, hxz⟩ := hr.seqnos t ht x hx
      have hlen := lt_length_of_mem_level hu
      have hl0 : l = 0 := by omega
      subst hl0
      have hlt := hd.top w hw j hj u hu z hz y hy
      omega
    · omega

theorem Replaces.below (hs : v.Sound) (hr : Replaces v ids run destLevel) (hd : Descending v) :
    ∀ i j, 1 ≤ i → i < j → ∀ t ∈ ((v.replaceTables ids run destLevel back).level i).flatten,
      ∀ u ∈ ((v.replaceTables ids run destLevel back).level j).flatten, t.Above u := by
  intro i j hi hij t ht' u hu' e he f hf hk
  rcases TreeState.mem_level_replaceTables ht' with ⟨ht, htid⟩ | ⟨rfl, ht⟩
  · rcases TreeState.mem_level_replaceTables hu' with ⟨hu, -⟩ | ⟨rfl, hu⟩
    · exact hd.below i j hi hij t ht u hu e he f hf hk
    · rcases hr.entries (by omega) u hu f hf with ⟨l, -, hl, w, hw, hwid, g, hg, hgk, hseqno⟩ | hfits
      · -- an entry from further down is older, one from here would share its level with `e`
        have hlt : g.seqno < e.seqno := by
          by_cases hil : i < l
          · exact hd.below i l hi hil t ht w hw e he g hg (hk.trans hgk.symm)
          · exfalso
            rcases hl with rfl | hl
            · exact htid (hr.between ⟨w, hw, hwid⟩ i hi hij t ht)
            · obtain rfl : i = l := by omega
              refine above_of_same_level hs hi ht hw ?_ he hg (hk.trans hgk.symm)
              rintro rfl
              exact htid hwid
        omega
      · exact (hfits i hi t ht htid e he hk).1 hij
  · rcases TreeState.mem_level_replaceTables hu' with ⟨hu, huid⟩ | ⟨hdest, -⟩
    · rcases hr.entries hi t ht e he with ⟨l, hl, -, w, hw, -, g, hg, hgk, hseqno⟩ | hfits
      · have hlen := lt_length_of_mem_level hu
        have hlt : f.seqno < g.seqno := by
          rcases Nat.eq_zero_or_pos l with rfl | hpos
          · exact (hd.top w hw j (by omega) u hu).above g hg f hf (hgk.trans hk)
          · exact hd.below l j hpos (by omega) w hw u hu g hg f hf (hgk.trans hk)
        omega
      · exact (hfits j (by omega) u hu huid f hf hk.symm).2 hij
    · omega

theorem Replaces.descending (hs : v.Sound) (hr : Replaces v ids run destLevel) (hd : Descending v) :
    Descending (v.replaceTables ids run destLevel back) := ⟨hr.top hd, hr.below hs hd⟩

end Replace

structure RunningOrder (v : Version (Table K V)) (r : RunningMerge K V) : Prop where
  ids : ∀ id ∈ r.tableIds, ∃ u ∈ r.inputs, u.id = id
  placed : ∀ u ∈ r.inputs, u.id ∈ r.tableIds ∧ ∃ l ≤ r.destLevel,
    (l = 0 ∨ r.destLevel ≤ l + 1) ∧ u ∈ (v.level l).flatten
  entries : ∀ t ∈ r.outputs, (∀ e ∈ t.entries, ∃ u ∈ r.inputs, ∃ f ∈ u.entries,
    f.userKey = e.userKey ∧
      (e.seqno = f.seqno ∨ r.destLevel + 1 = v.levels.length ∧ e.seqno = 0)) ∨
    t.entries = t.marker.toList
  seqnos : ∀ t ∈ r.outputs, ∀ x ∈ t.seqnos, ∃ u ∈ r.inputs, ∃ y ∈ u.seqnos,
    x = y ∨ r.destLevel + 1 = v.levels.length ∧ x = 0
  between : TakesL0 v r.tableIds → ∀ i, 1 ≤ i → i < r.destLevel →
    ∀ t ∈ (v.level i).flatten, t.id ∈ r.tableIds
  newer : TakesL0 v r.tableIds → ∀ t ∈ (v.level 0).flatten, t.id ∉ r.tableIds →
    ∀ u ∈ r.outputs, t.Newer u

/-- A merge that takes L0 has it for itself, and no other merge ends above its target. -/
def HoldsL0 (v : Version (Table K V)) (r r' : RunningMerge K V) : Prop :=
  TakesL0 v r.tableIds → ¬ TakesL0 v r'.tableIds ∧ (r'.inputs ≠ [] → r.destLevel ≤ r'.destLevel)

structure Exclusive (v : Version (Table K V)) (r r' : RunningMerge K V) : Prop where
  disjoint : List.Disjoint r.tableIds r'.tableIds
  left : HoldsL0 v r r'
  right : HoldsL0 v r' r

structure Invariant (s : NumberedTree K V) : Prop where
  tree : s.tree.Invariant
  bound : ∀ t ∈ s.tree.knownTables, ∀ x ∈ t.seqnos, x < s.seqno
  descending : Descending s.tree.version
  running : ∀ r ∈ s.tree.running, RunningOrder s.tree.version r
  exclusive : s.tree.running.Pairwise (Exclusive s.tree.version)

section Running

variable {v v' : Version (Table K V)} {r r' : RunningMerge K V}

omit [LinearOrder K] in
theorem RunningOrder.frame (h : RunningOrder v r)
    (hlen : v'.levels.length = v.levels.length)
    (hstay : ∀ i, ∀ u ∈ (v.level i).flatten, u.id ∈ r.tableIds → u ∈ (v'.level i).flatten)
    (htakes : TakesL0 v' r.tableIds → TakesL0 v r.tableIds)
    (hbetween : TakesL0 v r.tableIds → ∀ i, 1 ≤ i → i < r.destLevel →
      ∀ x ∈ (v'.level i).flatten, x ∈ (v.level i).flatten)
    (hnewer : TakesL0 v r.tableIds → ∀ x ∈ (v'.level 0).flatten,
      x ∈ (v.level 0).flatten ∨ ∀ u ∈ r.outputs, x.Newer u) : RunningOrder v' r where
  ids := h.ids
  placed u hu := by
    obtain ⟨hid, l, hl, hsource, hmem⟩ := h.placed u hu
    exact ⟨hid, l, hl, hsource, hstay l u hmem hid⟩
  entries := by
    rw [hlen]
    exact h.entries
  seqnos := by
    rw [hlen]
    exact h.seqnos
  between ht i hi hlt x hx := h.between (htakes ht) i hi hlt x (hbetween (htakes ht) i hi hlt x hx)
  newer ht x hx hid := by
    rcases hnewer (htakes ht) x hx with hx | hnew
    · exact h.newer (htakes ht) x hx hid
    · exact hnew

omit [LinearOrder K] [RawKey K] [Inhabited V] in
theorem Exclusive.symm (h : Exclusive v r r') : Exclusive v r' r := ⟨h.disjoint.symm, h.right, h.left⟩

omit [LinearOrder K] [RawKey K] [Inhabited V] in
theorem HoldsL0.frame (h : HoldsL0 v r r') (hr : TakesL0 v' r.tableIds → TakesL0 v r.tableIds)
    (hr' : TakesL0 v' r'.tableIds → TakesL0 v r'.tableIds) : HoldsL0 v' r r' :=
  fun ht => ⟨fun ht' => (h (hr ht)).1 (hr' ht'), (h (hr ht)).2⟩

omit [LinearOrder K] [RawKey K] [Inhabited V] in
theorem exclusive_frame {running : List (RunningMerge K V)} (h : running.Pairwise (Exclusive v))
    (htakes : ∀ r ∈ running, TakesL0 v' r.tableIds → TakesL0 v r.tableIds) :
    running.Pairwise (Exclusive v') := by
  refine h.imp_of_mem fun {r r'} hr hr' hex => ?_
  exact ⟨hex.disjoint, hex.left.frame (htakes r hr) (htakes r' hr'),
    hex.right.frame (htakes r' hr') (htakes r hr)⟩

omit [LinearOrder K] in
theorem RunningOrder.mem_tables (h : RunningOrder v r) {id : ℕ}
    (hid : id ∈ r.tableIds) : ∃ u ∈ v.tables, u.id = id := by
  obtain ⟨u, hu, rfl⟩ := h.ids id hid
  obtain ⟨-, l, -, -, hmem⟩ := h.placed u hu
  exact ⟨u, Version.mem_tables_of_level hmem, rfl⟩

end Running

section Step

variable {s : NumberedTree K V}

theorem Invariant.enter {tables : List (Table K V)} {seqno : ℕ} (h : s.Invariant)
    (hfresh : s.tree.Fresh tables) (hwf : ∀ t ∈ tables, t.WF)
    (hnew : ∀ t ∈ tables, ∀ x ∈ t.seqnos, s.seqno ≤ x ∧ x < seqno) (hle : s.seqno ≤ seqno) :
    (⟨{ s.tree with version := s.tree.version.withNewL0Run tables }, seqno⟩ :
      NumberedTree K V).Invariant := by
  have hdisjoint : ∀ t ∈ tables, ∀ u ∈ s.tree.knownTables, u.id ≠ t.id := by
    have hnd := hfresh
    unfold TreeState.Fresh at hnd
    rw [map_append, nodup_append] at hnd
    exact fun t ht u hu => hnd.2.2 _ (mem_map_of_mem hu) _ (mem_map_of_mem ht)
  have hnewer : ∀ t ∈ tables, ∀ u ∈ s.tree.knownTables, t.Newer u :=
    fun t ht u hu x hx y hy => (h.bound u hu y hy).trans_le (hnew t ht x hx).1
  have htakes : ∀ r ∈ s.tree.running,
      TakesL0 (s.tree.version.withNewL0Run tables) r.tableIds → TakesL0 s.tree.version r.tableIds := by
    rintro r hr ⟨t, ht, hid⟩
    rcases Version.mem_level_withNewL0Run ht with ht | ⟨-, ht⟩
    · exact ⟨t, ht, hid⟩
    · obtain ⟨u, hu, heq⟩ := (h.running r hr).mem_tables hid
      exact absurd heq (hdisjoint t ht u (mem_append_left _ hu))
  refine ⟨h.tree.withNewL0Run hfresh hwf, ?_, ⟨?_, ?_⟩, ?_, ?_⟩
  · intro t ht x hx
    rcases mem_append.1 ht with ht | ht
    · rcases Version.mem_tables_withNewL0Run.1 ht with ht | ht
      · exact (hnew t ht x hx).2
      · exact (h.bound t (mem_append_left _ ht) x hx).trans_le hle
    · exact (h.bound t (mem_append_right _ ht) x hx).trans_le hle
  · intro t ht j hj u hu
    rcases Version.mem_level_withNewL0Run hu with hu | ⟨rfl, -⟩
    · rcases Version.mem_level_withNewL0Run ht with ht | ⟨-, ht⟩
      · exact h.descending.top t ht j hj u hu
      · exact hnewer t ht u (mem_append_left _ (Version.mem_tables_of_level hu))
    · cases hj
  · intro i j hi hij t ht u hu
    rcases Version.mem_level_withNewL0Run ht with ht | ⟨rfl, -⟩
    · rcases Version.mem_level_withNewL0Run hu with hu | ⟨rfl, -⟩
      · exact h.descending.below i j hi hij t ht u hu
      · omega
    · cases hi
  · intro r hr
    refine (h.running r hr).frame Version.length_withNewL0Run
      (fun i u hu _ => Version.mem_level_withNewL0Run_of_mem hu) (htakes r hr) ?_ ?_
    · intro _ i hi _ x hx
      exact (Version.mem_level_withNewL0Run hx).resolve_right fun hz => by omega
    · intro _ x hx
      refine (Version.mem_level_withNewL0Run hx).imp_right fun hx u hu => ?_
      exact hnewer x hx.2 u (mem_append_right _ (mem_flatMap.2 ⟨r, hr, hu⟩))
  · exact exclusive_frame h.exclusive htakes

theorem Invariant.replace {ids : List ℕ} {run : List (Table K V)} {destLevel : ℕ} {back : Bool}
    {running : List (RunningMerge K V)} (h : s.Invariant)
    (htree : (⟨s.tree.version.replaceTables ids run destLevel back, running⟩ :
      TreeState K V).Invariant)
    (hsub : running.Sublist s.tree.running) (hrep : Replaces s.tree.version ids run destLevel)
    (hknown : ∀ t ∈ run, t ∈ s.tree.knownTables)
    (hfree : ∀ r ∈ running, List.Disjoint ids r.tableIds)
    (hzero : destLevel = 0 → ∀ r ∈ running, ∀ t ∈ run, t.id ∉ r.tableIds)
    (hlock : ∀ r ∈ running, TakesL0 s.tree.version r.tableIds → run ≠ [] →
      1 ≤ destLevel ∧ r.destLevel ≤ destLevel) :
    (⟨⟨s.tree.version.replaceTables ids run destLevel back, running⟩, s.seqno⟩ :
      NumberedTree K V).Invariant := by
  have htakes : ∀ r ∈ running,
      TakesL0 (s.tree.version.replaceTables ids run destLevel back) r.tableIds →
        TakesL0 s.tree.version r.tableIds := by
    rintro r hr ⟨t, ht, hid⟩
    rcases TreeState.mem_level_replaceTables ht with ⟨ht, -⟩ | ⟨hdest, ht⟩
    · exact ⟨t, ht, hid⟩
    · exact absurd hid (hzero hdest.symm r hr t ht)
  refine ⟨htree, ?_, hrep.descending h.tree.sound h.descending, ?_, ?_⟩
  · intro t ht
    rcases mem_append.1 ht with ht | ht
    · rcases Version.mem_tables_replaceTables.1 ht with ⟨ht, -⟩ | ⟨-, ht⟩
      · exact h.bound t (mem_append_left _ ht)
      · exact h.bound t (hknown t ht)
    · obtain ⟨r, hr, ht⟩ := mem_flatMap.1 ht
      exact h.bound t (mem_append_right _ (mem_flatMap.2 ⟨r, hsub.subset hr, ht⟩))
  · intro r hr
    refine (h.running r (hsub.subset hr)).frame Version.length_replaceTables ?_ (htakes r hr) ?_ ?_
    · intro i u hu hid
      exact TreeState.mem_level_replaceTables_of_mem hu fun hmem => hfree r hr hmem hid
    · intro htop i hi hlt x hx
      rcases TreeState.mem_level_replaceTables hx with ⟨hx, -⟩ | ⟨hdest, hx⟩
      · exact hx
      · have := (hlock r hr htop (ne_nil_of_mem hx)).2
        omega
    · intro htop x hx
      rcases TreeState.mem_level_replaceTables hx with ⟨hx, -⟩ | ⟨hdest, hx⟩
      · exact Or.inl hx
      · have := (hlock r hr htop (ne_nil_of_mem hx)).1
        omega
  · exact exclusive_frame (h.exclusive.sublist hsub) htakes

variable {tree : TreeState K V} {r : RunningMerge K V}

omit [LinearOrder K] [RawKey K] [Inhabited V] in
theorem not_takesL0 (hfree : ∀ t ∈ (tree.version.level 0).flatten, t.id ∉ tree.hiddenSet)
    {r : RunningMerge K V} (hr : r ∈ tree.running) : ¬ TakesL0 tree.version r.tableIds := by
  rintro ⟨t, ht, hid⟩
  exact hfree t ht (mem_flatMap.2 ⟨r, hr, hid⟩)

variable {input : CompactionInput} {i : ℕ}

theorem Invariant.destLevel_le (h : s.Invariant)
    (hwin : s.tree.version.TakesWindow s.tree.hiddenSet i input) (hr : r ∈ s.tree.running)
    (htop : TakesL0 s.tree.version r.tableIds) : r.destLevel ≤ i := by
  by_contra hlt
  obtain ⟨t, ht, hfree⟩ := hwin.free
  have hid := (h.running r hr).between htop i hwin.level (not_le.1 hlt) t ht
  exact hfree (mem_flatMap.2 ⟨r, hr, hid⟩)

variable {v : Version (Table K V)}

omit [LinearOrder K] [RawKey K] [Inhabited V] in
theorem not_takesL0_of_window (hd : v.DistinctIds) {hidden : List ℕ}
    (hwin : v.TakesWindow hidden i input) :
    ¬ TakesL0 v input.tableIds := by
  rintro ⟨t, ht, hid⟩
  have hmem : t ∈ v.inputs input.tableIds :=
    mem_filter.2 ⟨Version.mem_tables_of_level ht, decide_eq_true hid⟩
  rcases hwin.source t hmem with hlow | hlow
  · have := hd.level_unique ht hlow
    have := hwin.level
    omega
  · have := hd.level_unique ht hlow
    omega

omit [LinearOrder K] [RawKey K] [Inhabited V] in
theorem replaces_of_move (hsource : ∀ t ∈ v.inputs input.tableIds, ∃ l ≤ input.destLevel,
      (l = 0 ∨ input.destLevel ≤ l + 1) ∧ t ∈ (v.level l).flatten)
    (hbetween : TakesL0 v input.tableIds → ∀ i, 1 ≤ i → i < input.destLevel →
      ∀ t ∈ (v.level i).flatten, t.id ∈ input.tableIds)
    (htop : TakesL0 v input.tableIds → ∀ t ∈ (v.level 0).flatten, t.id ∈ input.tableIds) :
    Replaces v input.tableIds (v.inputs input.tableIds) input.destLevel where
  entries _ t ht e he := by
    obtain ⟨l, hl, hsrc, hmem⟩ := hsource t ht
    exact Or.inl ⟨l, hl, hsrc, t, hmem, of_decide_eq_true (mem_filter.1 ht).2, e, he, rfl,
      Or.inl rfl⟩
  seqnos t ht x hx := by
    obtain ⟨l, hl, -, hmem⟩ := hsource t ht
    exact ⟨l, hl, t, hmem, of_decide_eq_true (mem_filter.1 ht).2, x, hx, Or.inl rfl⟩
  between := hbetween
  newer htakes t ht hid := absurd (htop htakes t ht) hid

theorem Invariant.move (h : s.Invariant) (hdest : 1 ≤ input.destLevel)
    (htakes : s.tree.version.TakesTop input ∨
      ∃ i, s.tree.version.TakesWindow s.tree.hiddenSet i input)
    (htree : (s.tree.move input).Invariant) :
    (⟨s.tree.move input, s.seqno⟩ : NumberedTree K V).Invariant := by
  unfold TreeState.move at htree ⊢
  split
  · exact h
  case isFalse hfree =>
    rw [if_neg hfree] at htree
    have hfree : ∀ id ∈ input.tableIds, id ∉ s.tree.hiddenSet := by simpa using hfree
    refine h.replace htree (List.Sublist.refl _) ?_ ?_ ?_ (fun hz => by omega) ?_
    · rcases htakes with htop | ⟨i, hwin⟩
      · refine replaces_of_move (fun t ht => ?_) (fun _ => htop.between) (fun _ => htop.top)
        obtain ⟨l, hl, hmem, hsrc⟩ := htop.source t ht
        exact ⟨l, hl, hsrc, hmem⟩
      · have hno := not_takesL0_of_window h.tree.sound.ids hwin
        refine replaces_of_move (fun t ht => ?_) (fun ht => absurd ht hno) (fun ht => absurd ht hno)
        have := hwin.dest
        rcases hwin.source t ht with hmem | hmem
        · exact ⟨i, by omega, by omega, hmem⟩
        · exact ⟨i + 1, by omega, by omega, hmem⟩
    · exact fun t ht => mem_append_left _ (mem_filter.1 ht).1
    · exact fun r hr id hid hid' => hfree id hid (mem_flatMap.2 ⟨r, hr, hid'⟩)
    · intro r hr hr0 _
      rcases htakes with htop | ⟨i, hwin⟩
      · exact absurd hr0 (not_takesL0 (fun t ht => hfree _ (htop.top t ht)) hr)
      · have := h.destLevel_le hwin hr hr0
        have := hwin.dest
        omega

variable {tree' : TreeState K V} {p : CompactionPayload K V}

omit [RawKey K] in
theorem startMerge_cases [RawKey K] (h : tree.startMerge p = some tree') : tree' = tree ∨
      (∀ id ∈ p.tableIds, id ∉ tree.hiddenSet) ∧ ∃ jobs, p.jobs tree.version = some jobs ∧
        tree' = { tree with running := tree.running ++ [⟨p.tableIds, p.destLevel,
          tree.version.inputs p.tableIds, jobs.flatMap (·.outputs)⟩] } := by
  unfold TreeState.startMerge at h
  split at h
  · cases h
    exact Or.inl rfl
  case isFalse hfree =>
    split at h
    · cases h
      exact Or.inl rfl
    case h_2 r hr =>
      split at h
      case isFalse => cases h
      case isTrue =>
        cases h
        obtain ⟨jobs, hjobs, rfl⟩ := Option.map_eq_some_iff.1 hr
        exact Or.inr ⟨by simpa using hfree, jobs, hjobs, rfl⟩

theorem outputs_seqnos (hnd : p.tableIds.Nodup) {jobs : List (MergeJob K V)}
    (hj : p.jobs v = some jobs) :
    ∀ t ∈ jobs.flatMap (·.outputs),
      ((∀ e ∈ t.entries, ∃ u ∈ v.inputs p.tableIds, ∃ f ∈ u.entries, f.userKey = e.userKey ∧
        (e.seqno = f.seqno ∨ p.destLevel + 1 = v.levels.length ∧ e.seqno = 0)) ∨
        t.entries = t.marker.toList) ∧
      ∀ x ∈ t.seqnos, ∃ u ∈ v.inputs p.tableIds, ∃ y ∈ u.seqnos,
        x = y ∨ p.destLevel + 1 = v.levels.length ∧ x = 0 := by
  intro t ht
  obtain ⟨j, hjob, htj⟩ := mem_flatMap.1 ht
  obtain ⟨⟨readers, hitems, hreaders⟩, hrts⟩ := CompactionPayload.jobs_given hnd hj j hjob
  have hinput : ∀ {u : Table K V}, u ∈ v.tables → u.id ∈ p.tableIds → u ∈ v.inputs p.tableIds :=
    fun hu hid => mem_filter.2 ⟨hu, decide_eq_true hid⟩
  have hback : ∀ e ∈ j.items, ∃ u ∈ v.inputs p.tableIds, ∃ f ∈ u.entries, f.userKey = e.userKey ∧
      (e.seqno = f.seqno ∨ p.destLevel + 1 = v.levels.length ∧ e.seqno = 0) := by
    intro e he
    rw [hitems] at he
    obtain ⟨r, hr, f, hf, hkey, hseqno⟩ := CompactionPayload.output_seqno he
    obtain ⟨u, hu, hid, hfu⟩ := hreaders r hr f hf
    exact ⟨u, hinput hu hid, f, hfu, hkey, hseqno.imp_right fun hz => ⟨eq_of_beq hz.1, hz.2⟩⟩
  have hrt : ∀ rt ∈ j.rangeTombstones, ∃ u ∈ v.inputs p.tableIds, rt.seqno ∈ u.seqnos := by
    intro rt hrt
    obtain ⟨u, hu, hid, hmem⟩ := hrts rt hrt
    exact ⟨u, hinput hu hid, mem_append_right _ (mem_map_of_mem hmem)⟩
  have hmade := writeAll_madeOf htj
  refine ⟨(writeAll_entries htj).imp_left fun hall e he => hback e (hall e he), fun x hx => ?_⟩
  rcases mem_append.1 hx with hx | hx
  · obtain ⟨e, he, rfl⟩ := mem_map.1 hx
    rcases hmade.entries e he with hitem | ⟨-, rt, hmem, -, hseqno⟩
    · obtain ⟨u, hu, f, hf, -, hseqno⟩ := hback e hitem
      exact ⟨u, hu, f.seqno, Table.seqno_mem hf, hseqno⟩
    · obtain ⟨u, hu, hy⟩ := hrt rt hmem
      exact ⟨u, hu, rt.seqno, hy, Or.inl hseqno⟩
  · obtain ⟨rt', hmem', rfl⟩ := mem_map.1 hx
    obtain ⟨rt, hmem, hseqno⟩ := hmade.rangeTombstones rt' hmem'
    obtain ⟨u, hu, hy⟩ := hrt rt hmem
    exact ⟨u, hu, rt.seqno, hy, Or.inl hseqno⟩

theorem Invariant.startMerge (h : s.Invariant)
    (htakes : Strategy.MergesTop s.tree.version s.tree.hiddenSet ⟨p.tableIds, p.destLevel⟩ ∨
      ∃ i, s.tree.version.TakesWindow s.tree.hiddenSet i ⟨p.tableIds, p.destLevel⟩ ∧
      p.tableIds.Nodup) (hs : s.tree.startMerge p = some tree') (htree : tree'.Invariant) :
    (⟨tree', s.seqno⟩ : NumberedTree K V).Invariant := by
  rcases startMerge_cases hs with rfl | ⟨hfree, jobs, hjobs, rfl⟩
  · exact h
  have hnd : p.tableIds.Nodup := by
    rcases htakes with hmerge | ⟨i, -, hnd⟩
    · exact hmerge.nodup
    · exact hnd
  have hout := outputs_seqnos hnd hjobs
  set r : RunningMerge K V := ⟨p.tableIds, p.destLevel, s.tree.version.inputs p.tableIds,
    jobs.flatMap (·.outputs)⟩ with hr
  have horder : RunningOrder s.tree.version r := by
    refine ⟨fun id hid => ?_, fun u hu => ⟨of_decide_eq_true (mem_filter.1 hu).2, ?_⟩,
      fun t ht => (hout t ht).1, fun t ht => (hout t ht).2, ?_, ?_⟩
    · obtain ⟨t, ht, rfl⟩ := CompactionPayload.jobs_found hjobs id hid
      exact ⟨t, mem_filter.2 ⟨ht, decide_eq_true hid⟩, rfl⟩
    · rcases htakes with hmerge | ⟨i, hwin, -⟩
      · obtain ⟨l, hl, hmem, hsrc⟩ := hmerge.takes.source u hu
        exact ⟨l, hl, hsrc, hmem⟩
      · have hdest : r.destLevel = i + 1 := hwin.dest
        rcases hwin.source u hu with hmem | hmem
        · exact ⟨i, by omega, by omega, hmem⟩
        · exact ⟨i + 1, by omega, by omega, hmem⟩
    · intro htop
      rcases htakes with hmerge | ⟨i, hwin, -⟩
      · exact hmerge.takes.between
      · exact absurd htop (not_takesL0_of_window h.tree.sound.ids hwin)
    · intro htop t ht hid
      rcases htakes with hmerge | ⟨i, hwin, -⟩
      · exact absurd (hmerge.takes.top t ht) hid
      · exact absurd htop (not_takesL0_of_window h.tree.sound.ids hwin)
  refine ⟨htree, ?_, h.descending, ?_, ?_⟩
  · intro t ht x hx
    rcases mem_append.1 ht with ht | ht
    · exact h.bound t (mem_append_left _ ht) x hx
    · rw [flatMap_append, mem_append] at ht
      rcases ht with ht | ht
      · exact h.bound t (mem_append_right _ ht) x hx
      · rw [flatMap_singleton] at ht
        obtain ⟨u, hu, y, hy, hxy⟩ := (hout t ht).2 x hx
        have hy := h.bound u (mem_append_left _ (mem_filter.1 hu).1) y hy
        show x < s.seqno
        omega
  · intro r' hr'
    rcases mem_append.1 hr' with hr' | hr'
    · exact h.running r' hr'
    · rw [mem_singleton.1 hr']
      exact horder
  · refine pairwise_append.2 ⟨h.exclusive, pairwise_singleton _ _, fun r' hr' r'' hr'' => ?_⟩
    rw [mem_singleton.1 hr'']
    refine ⟨fun id hid hid' => hfree id hid' (mem_flatMap.2 ⟨r', hr', hid⟩), ?_, ?_⟩
    · intro htop
      rcases htakes with hmerge | ⟨i, hwin, -⟩
      · exact absurd htop (not_takesL0
          (Version.levelIsBusy_eq_false.1 (hmerge.free 0 (zero_le _))) hr')
      · refine ⟨not_takesL0_of_window h.tree.sound.ids hwin, fun _ => ?_⟩
        have hdest : r.destLevel = i + 1 := hwin.dest
        have := h.destLevel_le hwin hr' htop
        omega
    · intro htop
      rcases htakes with hmerge | ⟨i, hwin, -⟩
      · refine ⟨not_takesL0 (Version.levelIsBusy_eq_false.1 (hmerge.free 0 (zero_le _))) hr',
          fun hne => ?_⟩
        -- the other merge has a hidden input at most this far down, where no level is busy
        by_contra hlt
        obtain ⟨u, hu⟩ := exists_mem_of_ne_nil _ hne
        obtain ⟨hid, l, hl, -, hmem⟩ := (h.running r' hr').placed u hu
        refine Version.levelIsBusy_eq_false.1 (hmerge.free l ?_) u hmem
          (mem_flatMap.2 ⟨r', hr', hid⟩)
        exact hl.trans (not_le.1 hlt).le
      · exact absurd htop (not_takesL0_of_window h.tree.sound.ids hwin)

def MarkersFit (v : Version (Table K V)) (r : RunningMerge K V) : Prop :=
  1 ≤ r.destLevel → ∀ t ∈ r.outputs, t.entries = t.marker.toList → ∀ e ∈ t.entries,
    FitsBetween v r.tableIds r.destLevel e

omit [LinearOrder K] in
theorem RunningOrder.replaces (h : RunningOrder v r) (hfit : MarkersFit v r) :
    Replaces v r.tableIds r.outputs r.destLevel where
  entries hdest t ht e he := by
    rcases h.entries t ht with hback | hmarker
    · obtain ⟨u, hu, f, hf, hkey, hseqno⟩ := hback e he
      obtain ⟨hid, l, hl, hsrc, hmem⟩ := h.placed u hu
      exact Or.inl ⟨l, hl, hsrc, u, hmem, hid, f, hf, hkey, hseqno⟩
    · exact Or.inr (hfit hdest t ht hmarker e he)
  seqnos t ht x hx := by
    obtain ⟨u, hu, y, hy, hxy⟩ := h.seqnos t ht x hx
    obtain ⟨hid, l, hl, -, hmem⟩ := h.placed u hu
    exact ⟨l, hl, u, hmem, hid, y, hy, hxy⟩
  between := h.between
  newer := h.newer

theorem Invariant.install (h : s.Invariant) (hr : s.tree.running[i]? = some r)
    (hfit : MarkersFit s.tree.version r)
    (htree : (⟨s.tree.version.withMerge r.tableIds r.outputs r.destLevel,
      s.tree.running.eraseIdx i⟩ : TreeState K V).Invariant) :
    (⟨⟨s.tree.version.withMerge r.tableIds r.outputs r.destLevel, s.tree.running.eraseIdx i⟩,
      s.seqno⟩ : NumberedTree K V).Invariant := by
  have hmem := mem_of_getElem? hr
  have horder := h.running r hmem
  -- the other merges, seen from this one
  have hothers : ∀ r' ∈ s.tree.running.eraseIdx i, Exclusive s.tree.version r r' := by
    obtain ⟨hlt, rfl⟩ := List.getElem?_eq_some_iff.1 hr
    have hperm := (List.getElem_cons_eraseIdx_perm hlt).pairwise_iff
      (R := Exclusive s.tree.version) fun hex => hex.symm
    exact (pairwise_cons.1 (hperm.2 h.exclusive)).1
  have houtputs : r.outputs ≠ [] → r.inputs ≠ [] := by
    intro hne hnil
    obtain ⟨t, ht⟩ := exists_mem_of_ne_nil _ hne
    obtain ⟨⟨a, ha, -⟩, -⟩ := (h.tree.outputs r hmem).hull t ht
    rw [hnil] at ha
    cases ha
  refine h.replace htree (eraseIdx_sublist _ _) (horder.replaces hfit) ?_ ?_ ?_ ?_
  · exact fun t ht => mem_append_right _ (mem_flatMap.2 ⟨r, hmem, ht⟩)
  · exact fun r' hr' => (hothers r' hr').disjoint
  · intro _ r' hr' t ht hid
    obtain ⟨u, hu, heq⟩ := (h.running r' (mem_of_mem_eraseIdx hr')).mem_tables hid
    have hnd := h.tree.ids
    unfold TreeState.knownTables at hnd
    rw [map_append, nodup_append] at hnd
    exact hnd.2.2 _ (mem_map_of_mem hu) _
      (mem_map_of_mem (mem_flatMap.2 ⟨r, hmem, ht⟩)) heq
  · intro r' hr' hr0 hne
    have hex := (hothers r' hr').right hr0
    refine ⟨?_, hex.2 (houtputs hne)⟩
    -- a merge into L0 takes L0
    by_contra hz
    obtain ⟨u, hu⟩ := exists_mem_of_ne_nil _ (houtputs hne)
    obtain ⟨hid, l, hl, -, hul⟩ := horder.placed u hu
    have hl0 : l = 0 := by omega
    subst hl0
    exact hex.1 ⟨u, hul, hid⟩

theorem Invariant.abort (h : s.Invariant) (i : ℕ)
    (htree : ({ s.tree with running := s.tree.running.eraseIdx i } : TreeState K V).Invariant) :
    (⟨{ s.tree with running := s.tree.running.eraseIdx i }, s.seqno⟩ :
      NumberedTree K V).Invariant := by
  have hsub := eraseIdx_sublist s.tree.running i
  refine ⟨htree, fun t ht => h.bound t ?_, h.descending, fun r hr => h.running r (hsub.subset hr),
    h.exclusive.sublist hsub⟩
  exact List.Sublist.subset ((hsub.flatMap _).append_left _) ht

end Step

section Run

/-- The clean steps, where markers of range tombstones keep to the order as well. -/
def Orderly (st : Strategy) (s : NumberedTree K V) : NumberedAction K V → Prop
  | .tree a => TreeState.Clean st s.tree a ∧
      ∀ i r, a = .install i → s.tree.running[i]? = some r → MarkersFit s.tree.version r
  | .ingest _ _ => True

variable {st : Strategy} {s s' : NumberedTree K V}

theorem foldl_max_spec (xs : List ℕ) (n : ℕ) :
    n ≤ xs.foldl (fun n x => max n (x + 1)) n ∧
      ∀ x ∈ xs, x < xs.foldl (fun n x => max n (x + 1)) n := by
  induction xs generalizing n with
  | nil => exact ⟨le_rfl, fun x hx => nomatch hx⟩
  | cons y xs ih =>
    obtain ⟨hle, hlt⟩ := ih (max n (y + 1))
    rw [foldl_cons]
    refine ⟨(le_max_left _ _).trans hle, fun x hx => ?_⟩
    rcases mem_cons.1 hx with rfl | hx
    · exact lt_of_succ_le ((le_max_right _ _).trans hle)
    · exact hlt x hx

theorem ingestion_tables_wf (ing : Ingestion K V) (globalSeqno : ℕ) :
    ∀ t ∈ ing.tables globalSeqno, t.WF := by
  intro _ ht
  obtain ⟨t, hwritten, rfl⟩ := mem_map.1 ht
  have hsorted : KeySorted ing.items := ing.ascending.imp le_of_lt
  have hwf := writeAll_flush hsorted (fun w _ hnil id t' ht' => ?_) t hwritten
  · refine ⟨hwf.valid, ?_, fun e he => ?_⟩
    · exact pairwise_map.2 hwf.sorted
    · obtain ⟨f, hf, rfl⟩ := mem_map.1 he
      exact hwf.bounds f hf
  · -- without range tombstones there is no table for an empty window
    rw [Window.seal_nil hnil] at ht'
    cases ht'

theorem Invariant.step {a : NumberedAction K V} (h : s.Invariant) (ho : Orderly st s a)
    (hs : step st s a = some s') : s'.Invariant := by
  unfold NumberedTree.step at hs
  split at hs
  case isFalse => cases hs
  case isTrue hbrings =>
    obtain ⟨tree', htree', rfl⟩ := Option.map_eq_some_iff.1 hs
    obtain ⟨hle, hlt⟩ := foldl_max_spec (brings a) s.seqno
    cases a with
    | ingest ing globalSeqno =>
      simp only [treeStep] at htree'
      split at htree'
      case isFalse => cases htree'
      case isTrue hfresh =>
        cases htree'
        refine h.enter hfresh (ingestion_tables_wf ing globalSeqno) (fun t ht x hx => ?_) hle
        have hx : x ∈ brings (.ingest ing globalSeqno : NumberedAction K V) := by
          obtain ⟨hrts, hentries⟩ := ing.tables_spec.1 t ht
          rw [Table.seqnos, hrts, map_nil, append_nil] at hx
          obtain ⟨e, he, rfl⟩ := mem_map.1 hx
          rw [hentries e he]
          exact mem_singleton_self _
        exact ⟨hbrings x hx, hlt x hx⟩
    | tree a =>
      have htree := h.tree.step ho.1 htree'
      cases a with
      | flush o sealed =>
        simp only [treeStep, TreeState.step] at htree'
        split at htree'
        case isFalse => cases htree'
        case isTrue hfresh =>
          cases htree'
          refine h.enter hfresh (writeAll_flush (TreeState.flush_items_sorted o sealed) ho.1)
            (fun t ht x hx => ?_) hle
          have hx := o.tables_seqnos t ht x hx
          exact ⟨hbrings x hx, hlt x hx⟩
      | compact sc o =>
        simp only [treeStep, TreeState.step] at htree'
        cases hchoice : st.choose sc s.tree.version s.tree.hiddenSet with
        | doNothing =>
          rw [hchoice] at htree'
          cases htree'
          exact h
        | move input =>
          rw [hchoice] at htree'
          cases htree'
          obtain ⟨w, hw⟩ := Strategy.choose_move h.tree.sound.toOrdered hchoice
          exact h.move hw.dest (Strategy.choose_move_takes h.tree.sound.toOrdered hchoice) htree
        | merge input =>
          rw [hchoice] at htree'
          exact h.startMerge (Strategy.choose_merge_takes h.tree.sound.toOrdered hchoice) htree' htree
      | install i =>
        obtain ⟨r, hr, rfl⟩ := Option.map_eq_some_iff.1 htree'
        exact h.install hr (ho.2 i r rfl hr) htree
      | abort i =>
        obtain ⟨r, -, rfl⟩ := Option.map_eq_some_iff.1 htree'
        exact h.abort i htree

theorem initial_invariant (levelCount : ℕ) : (initial levelCount : NumberedTree K V).Invariant := by
  have htree := TreeState.initial_invariant (K := K) (V := V) levelCount
  have hnone : ∀ i, ∀ t ∈ ((initial levelCount : NumberedTree K V).tree.version.level i).flatten,
      False := by
    intro i t ht
    have hlevel : (initial levelCount : NumberedTree K V).tree.version.level i = [] := by
      unfold Version.level initial TreeState.initial
      rw [getElem?_replicate]
      split <;> rfl
    rw [hlevel] at ht
    cases ht
  refine ⟨htree, ?_, ⟨fun t ht => (hnone 0 t ht).elim, fun i _ _ _ t ht => (hnone i t ht).elim⟩,
    fun r hr => (nomatch hr), List.Pairwise.nil⟩
  intro t ht
  simp [initial, TreeState.initial, TreeState.knownTables, Version.tables] at ht

/-- Along any history whose steps are orderly, the sequence numbers of each key descend from level
to level. -/
theorem run_seqnosDescend {levelCount : ℕ} {actions : List (NumberedAction K V)}
    (h : Transition.Run (step st) (Orderly st) (initial levelCount) actions s) :
    s.tree.version.SeqnosDescend :=
  (h.invariant (fun _ _ _ hi ho hs => Invariant.step hi ho hs)
    (initial_invariant levelCount)).descending.seqnosDescend

end Run

section Example

open TreeState (put flushPut)

def compactLevel (id highest : ℕ) (needNewL1 l1ExceedsOne : Bool) : NumberedAction (List Byte) ℕ :=
  .tree (.compact ⟨fun t => if t.id = 3 then 15 else 3, needNewL1, highest, true, l1ExceedsOne⟩
    ⟨[], 0, 0, none, 1, false, fun _ _ _ => false, fun _ n => id + n, List.length⟩)

def staleHistory : List (NumberedAction (List Byte) ℕ) :=
  [.tree (flushPut 1 48 1), compactLevel 0 0 false false,
   .tree (flushPut 2 122 2), compactLevel 0 0 false false,
   .tree (flushPut 3 99 3), compactLevel 0 0 true false,
   .tree (flushPut 4 102 4), compactLevel 0 0 true false,
   .tree (flushPut 5 97 5), .tree (flushPut 6 97 6),
   compactLevel 7 0 false true, .tree (.install 0),
   .tree (flushPut 8 99 7), compactLevel 0 0 true false,
   compactLevel 9 4 false false, .tree (.install 0),
   compactLevel 10 5 false false, .tree (.install 0)]

theorem staleHistory_ascends : ∃ s, Transition.Run (step ⟨1, 2, true⟩) (fun _ _ => True)
    (initial 7) staleHistory s ∧ ¬ s.tree.version.SeqnosDescend := by
  -- some entry of the sixth level is no newer than one of its key in the last
  have hrun : (Transition.exec (step ⟨1, 2, true⟩) (initial 7) staleHistory).any (fun s =>
      (s.tree.version.level 5).flatten.any fun t => (s.tree.version.level 6).flatten.any fun u =>
        t.entries.any fun e => u.entries.any fun f =>
          decide (e.userKey = f.userKey ∧ e.seqno ≤ f.seqno)) = true := by decide +kernel
  obtain ⟨s, hexec, hs⟩ := (Option.any_eq_true _ _).1 hrun
  simp only [any_eq_true, decide_eq_true_eq] at hs
  obtain ⟨t, ht, u, hu, e, he, f, hf, hkey, hle⟩ := hs
  refine ⟨s, Transition.run_of_exec hexec, fun h => ?_⟩
  exact absurd (h 5 6 (by decide) t ht u hu e he f hf hkey) (not_lt.2 hle)

/-- `a` is ingested over its first version, and a third version is merged into the second. -/
def layeredHistory : List (NumberedAction (List Byte) ℕ) :=
  [.tree (flushPut 1 97 1), compactLevel 0 0 false false,
   .ingest ⟨[put 97 0], by decide, by decide, fun _ _ => false, fun n => 2 + n,
     ⟨0, none, fun _ _ => false, fun n => n, List.length⟩⟩ 2, compactLevel 0 0 true false,
   .tree (flushPut 3 97 3), compactLevel 4 0 false false, .tree (.install 0)]

theorem layeredHistory_seqnosDescend : ∃ s, Transition.Run (step ⟨1, 2, true⟩) (Orderly ⟨1, 2, true⟩)
    (initial 3) layeredHistory s ∧ s.tree.version.SeqnosDescend := by
  suffices h : Transition.Run (step ⟨1, 2, true⟩) (Orderly ⟨1, 2, true⟩) (initial 3) layeredHistory
      ⟨⟨⟨[[], [[⟨4, ⟨[97], [97]⟩, [put 97 3, put 97 2], []⟩]],
        [[⟨1, ⟨[97], [97]⟩, [put 97 1], []⟩]]]⟩, []⟩, 4⟩ from ⟨_, h, run_seqnosDescend h⟩
  refine .cons rfl ⟨tombstoneOnlyWF_of_windows rfl, nofun⟩ (.cons rfl ⟨nofun, nofun⟩
    (.cons rfl trivial (.cons rfl ⟨nofun, nofun⟩
    (.cons rfl ⟨tombstoneOnlyWF_of_windows rfl, nofun⟩ (.cons rfl ⟨⟨nofun, ?_⟩, nofun⟩
    (.cons rfl ⟨?_, ?_⟩ (.nil _)))))))
  · rintro jobs ⟨⟩
    refine Or.inl fun j hj w hw hnil => ?_
    rw [mem_singleton.1 hj] at hw ⊢
    rfl
  · rintro r ⟨⟩
    nofun
  · rintro _ r ⟨⟩ ⟨⟩ _ t ht hmarker
    rw [mem_singleton.1 ht] at hmarker
    cases hmarker

end Example

end NumberedTree

end LsmTree
