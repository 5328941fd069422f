import LsmTree.Compaction.LeveledChoice
import LsmTree.Read.Locality

/-! `drop_range`: the tables that lie in a range of keys leave the tree at once. -/
namespace LsmTree

open List

section Bounds

variable {K : Type*}

inductive Bound (K : Type*) where
  | included (key : K)
  | excluded (key : K)
  | unbounded
  deriving DecidableEq, Repr

def Bound.key? : Bound K → Option K
  | .included key | .excluded key => some key
  | .unbounded => none

structure OwnedBounds (K : Type*) where
  start : Bound K
  stop : Bound K
  deriving DecidableEq, Repr

namespace OwnedBounds

/-- The second result of `range_bounds_to_owned_bounds`. The keys are compared as bytes. -/
def isEmpty [RawKey K] (b : OwnedBounds K) : Bool :=
  match b.start.key?, b.stop.key? with
  | some lo, some hi => bytesLt hi lo
  | _, _ => false

variable [LinearOrder K]

def Holds (b : OwnedBounds K) (k : K) : Prop :=
  (match b.start with
    | .included key => key ≤ k
    | .excluded key => key < k
    | .unbounded => True) ∧
  match b.stop with
    | .included key => k ≤ key
    | .excluded key => k < key
    | .unbounded => True

def Inside (b : OwnedBounds K) (r : KeyRange K) : Prop := ∀ k, r.min ≤ k → k ≤ r.max → b.Holds k

def contains (b : OwnedBounds K) (r : KeyRange K) : Bool :=
  (match b.start with
    | .unbounded => true
    | .included key => decide (key ≤ r.min)
    | .excluded key => decide (key < r.min)) &&
  match b.stop with
    | .unbounded => true
    | .included key => decide (r.max ≤ key)
    | .excluded key => decide (r.max < key)

theorem contains_iff_holds {b : OwnedBounds K} {r : KeyRange K} (hr : r.min ≤ r.max) :
    b.contains r = true ↔ b.Holds r.min ∧ b.Holds r.max := by
  rcases b with ⟨start, stop⟩
  cases start <;> cases stop <;> simp only [contains, Holds] <;> grind

theorem contains_iff {b : OwnedBounds K} {r : KeyRange K} (hr : r.min ≤ r.max) :
    b.contains r = true ↔ b.Inside r := by
  rw [contains_iff_holds hr]
  constructor
  · rintro ⟨hmin, hmax⟩ k hlo hhi
    rcases b with ⟨start, stop⟩
    constructor
    · cases start with
      | included key => exact hmin.1.trans hlo
      | excluded key => exact lt_of_lt_of_le hmin.1 hlo
      | unbounded => trivial
    · cases stop with
      | included key => exact hhi.trans hmax.2
      | excluded key => exact lt_of_le_of_lt hhi hmax.2
      | unbounded => trivial
  · intro h
    exact ⟨h r.min le_rfl hr, h r.max hr le_rfl⟩

end OwnedBounds

end Bounds

section Search

variable {T K : Type*} [LinearOrder K] [TableMeta T K]

/-- `partition_point`: how many tables at the front of the run satisfy `p`. -/
def runPartitionPoint (run : List T) (p : T → Bool) : ℕ := run.findIdx fun t => !p t

namespace OwnedBounds

def endsBefore (b : OwnedBounds K) (t : T) : Bool :=
  match b.start with
  | .unbounded => false
  | .included key => decide ((keyRange t).max < key)
  | .excluded key => decide ((keyRange t).max ≤ key)

def startsWithin (b : OwnedBounds K) (t : T) : Bool :=
  match b.stop with
  | .unbounded => true
  | .included key => decide ((keyRange t).min ≤ key)
  | .excluded key => decide ((keyRange t).min < key)

def rangeOverlapIndexes (b : OwnedBounds K) (run : List T) : Option (ℕ × ℕ) :=
  let lo := runPartitionPoint run b.endsBefore
  if run.length ≤ lo then none
  else
    match b.stop with
    | .unbounded => some (lo, run.length - 1)
    | _ =>
      let idx := lo + runPartitionPoint (run.drop lo) b.startsWithin
      if idx = 0 then none else if idx - 1 < lo then none else some (lo, idx - 1)

def overlapSlice (b : OwnedBounds K) (run : List T) : List T :=
  match b.rangeOverlapIndexes run with
  | none => []
  | some (lo, hi) => (run.drop lo).take (hi + 1 - lo)

def containedIds (b : OwnedBounds K) (v : Version T) : List ℕ :=
  (v.levels.flatten.flatMap fun run =>
    (b.overlapSlice run).filter fun t => b.contains (keyRange t)).map TableMeta.id

/-- `Strategy::choose`: the tables to drop, if any and none of them is hidden. -/
def choose (b : OwnedBounds K) (hidden : List ℕ) (v : Version T) : Option (List ℕ) :=
  if (b.containedIds v).any (· ∈ hidden) || (b.containedIds v).isEmpty then none
  else some (b.containedIds v)

variable {b : OwnedBounds K} {run : List T} {t : T} {v : Version T}

theorem rangeOverlapIndexes_eq (b : OwnedBounds K) (run : List T) {lo n : ℕ}
    (hlo : lo = runPartitionPoint run b.endsBefore)
    (hn : n = runPartitionPoint (run.drop lo) b.startsWithin) :
    b.rangeOverlapIndexes run = if 0 < n then some (lo, lo + n - 1) else none := by
  have hle : n ≤ run.length - lo := by
    rw [hn, ← length_drop]
    exact findIdx_le_length
  rw [rangeOverlapIndexes, ← hlo]
  by_cases hlen : run.length ≤ lo
  · rw [if_pos hlen, if_neg (by omega)]
  · rw [if_neg hlen, ← hn]
    cases hstop : b.stop with
    | unbounded =>
      have hall : n = run.length - lo := by
        rw [hn, runPartitionPoint, ← length_drop, findIdx_eq_length]
        intro t _
        simp [startsWithin, hstop]
      have hlast : lo + n - 1 = run.length - 1 := by omega
      dsimp only
      rw [if_pos (by omega), hlast]
    | included key | excluded key =>
      dsimp only
      split_ifs <;> first | rfl | omega

theorem overlapSlice_eq (b : OwnedBounds K) (run : List T) :
    b.overlapSlice run = (run.dropWhile b.endsBefore).takeWhile b.startsWithin := by
  obtain ⟨lo, hlo⟩ : ∃ lo, lo = runPartitionPoint run b.endsBefore := ⟨_, rfl⟩
  obtain ⟨n, hn⟩ : ∃ n, n = runPartitionPoint (run.drop lo) b.startsWithin := ⟨_, rfl⟩
  rw [overlapSlice, rangeOverlapIndexes_eq b run hlo hn, dropWhile_eq_drop_findIdx_not,
    ← runPartitionPoint, ← hlo, takeWhile_eq_take_findIdx_not, ← runPartitionPoint, ← hn]
  by_cases hpos : 0 < n
  · rw [if_pos hpos]
    dsimp only
    congr 1
    omega
  · obtain rfl : n = 0 := by omega
    rfl

theorem startsWithin_of_le {x : T} (hle : (keyRange x).min ≤ (keyRange t).min)
    (ht : b.startsWithin t = true) : b.startsWithin x = true := by
  rw [startsWithin] at ht ⊢
  cases hstop : b.stop with
  | unbounded => rfl
  | included key =>
    rw [hstop] at ht
    exact decide_eq_true (hle.trans (of_decide_eq_true ht))
  | excluded key =>
    rw [hstop] at ht
    exact decide_eq_true (hle.trans_lt (of_decide_eq_true ht))

theorem mem_overlapSlice (hs : SortedRun run) (hv : ∀ t ∈ run, Valid t) (ht : t ∈ run)
    (hc : b.contains (keyRange t) = true) : t ∈ b.overlapSlice run := by
  have hvalid : (keyRange t).min ≤ (keyRange t).max := hv t ht
  obtain ⟨hmin, hmax⟩ := (contains_iff_holds hvalid).1 hc
  have hlow : b.endsBefore t = false := by
    have := hmax.1
    rw [endsBefore]
    cases hstart : b.start <;> simp_all
  have hwithin : b.startsWithin t = true := by
    have := hmin.2
    rw [startsWithin]
    cases hstop : b.stop <;> simp_all
  have hdropped : t ∈ run.dropWhile b.endsBefore := by
    rw [← takeWhile_append_dropWhile (p := b.endsBefore) (l := run)] at ht
    rcases mem_append.1 ht with ht | ht
    · rw [mem_takeWhile_imp ht] at hlow
      cases hlow
    · exact ht
  have hsorted := (hs.lt_of_valid hv).sublist (dropWhile_sublist b.endsBefore)
  rw [overlapSlice_eq, SortedSearch.takeWhile_eq_filter]
  · exact mem_filter.2 ⟨hdropped, hwithin⟩
  · exact hsorted.imp fun hab => startsWithin_of_le hab.2.le

theorem overlapSlice_subset : b.overlapSlice run ⊆ run := by
  rw [overlapSlice_eq]
  exact ((takeWhile_sublist _).trans (dropWhile_sublist _)).subset

theorem mem_containedIds (hruns : ∀ run ∈ v.levels.flatten, SortedRun run)
    (hv : ∀ t ∈ v.tables, Valid t) {id : ℕ} : id ∈ b.containedIds v ↔
      ∃ t ∈ v.tables, b.Inside (keyRange t) ∧ TableMeta.id t = id := by
  rw [containedIds, mem_map]
  constructor
  · rintro ⟨t, ht, rfl⟩
    obtain ⟨run, hrun, ht⟩ := mem_flatMap.1 ht
    obtain ⟨ht, hc⟩ := mem_filter.1 ht
    have htv : t ∈ v.tables := mem_flatten.2 ⟨run, hrun, overlapSlice_subset ht⟩
    exact ⟨t, htv, (contains_iff (hv t htv)).1 hc, rfl⟩
  · rintro ⟨t, ht, hin, rfl⟩
    obtain ⟨run, hrun, htr⟩ := mem_flatten.1 ht
    have hc := (contains_iff (hv t ht)).2 hin
    refine ⟨t, mem_flatMap.2 ⟨run, hrun, mem_filter.2 ⟨?_, hc⟩⟩, rfl⟩
    exact mem_overlapSlice (hruns run hrun)
      (fun x hx => hv x (mem_flatten.2 ⟨run, hrun, hx⟩)) htr hc

end OwnedBounds

namespace Version

variable {v : Version T} {ids : List ℕ} {i : ℕ} {t : T}

def withDropped (v : Version T) (ids : List ℕ) : Version T :=
  ⟨v.levels.map fun runs => optimizeRuns (retainRuns ids runs)⟩

theorem level_withDropped :
    (v.withDropped ids).level i = optimizeRuns (retainRuns ids (v.level i)) := by
  by_cases hi : i < v.levels.length
  · simp [level, withDropped, hi]
  · simp [level, withDropped, hi, retainRuns, optimizeRuns]

theorem droppedRuns_perm (ids : List ℕ) (runs : List (List T)) :
    (optimizeRuns (retainRuns ids runs)).flatten.Perm
      (runs.flatten.filter fun t => TableMeta.id t ∉ ids) := by
  rw [← retainRuns_flatten]
  exact optimizeRuns_perm _

theorem mem_level_withDropped : t ∈ ((v.withDropped ids).level i).flatten ↔
    t ∈ (v.level i).flatten ∧ TableMeta.id t ∉ ids := by
  rw [level_withDropped, (droppedRuns_perm ids _).mem_iff, mem_filter, decide_eq_true_eq]

theorem withDropped_perm :
    (v.withDropped ids).tables.Perm (v.tables.filter fun t => TableMeta.id t ∉ ids) := by
  simp only [tables, withDropped]
  induction v.levels with
  | nil => exact List.Perm.refl _
  | cons runs levels ih =>
    simp only [map_cons, flatten_cons, flatten_append, filter_append]
    exact (droppedRuns_perm ids runs).append ih

theorem withDropped_levelsInOrder (h : v.LevelsInOrder) (hv : ∀ t ∈ v.tables, Valid t) :
    (v.withDropped ids).LevelsInOrder := by
  constructor
  · intro i hi
    rw [level_withDropped]
    exact ((droppedRuns_perm ids _).pairwise_iff Apart.symm).2 ((h.1 i hi).filter _)
  · intro i run hrun
    rw [level_withDropped] at hrun
    refine (optimizeRuns_good ?_ run hrun).sorted
    intro run' hrun'
    obtain ⟨hmem, hne⟩ := mem_filter.1 hrun'
    obtain ⟨whole, hwhole, rfl⟩ := mem_map.1 hmem
    have hsub : (whole.filter fun t => TableMeta.id t ∉ ids).Sublist whole := filter_sublist
    refine ⟨by simpa using hne, fun t ht => hv t ?_, List.Pairwise.sublist hsub (h.2 i _ hwhole)⟩
    exact mem_tables_of_level (mem_flatten.2 ⟨whole, hwhole, hsub.subset ht⟩)

end Version

end Search

variable {K V : Type*} [LinearOrder K]

namespace SuperVersion

def withDropped (sv : SuperVersion K V) (ids : List ℕ) : SuperVersion K V where
  activeMemtable := sv.activeMemtable
  sealedMemtables := sv.sealedMemtables
  version := sv.version.withDropped ids
  levelsInOrder := Version.withDropped_levelsInOrder sv.levelsInOrder
    fun t ht => (sv.tablesWF t ht).valid
  tablesWF t ht := sv.tablesWF t (mem_filter.1 (Version.withDropped_perm.mem_iff.1 ht)).1
  tablesSorted t ht :=
    sv.tablesSorted t (mem_filter.1 (Version.withDropped_perm.mem_iff.1 ht)).1

/-- `drop_tables`: declined when a table is hidden or not in the version. -/
def dropTables (sv : SuperVersion K V) (hidden ids : List ℕ) : SuperVersion K V :=
  if ids.isEmpty || ids.any (· ∈ hidden) then sv
  else if ids.all fun id => (sv.version.getTable id).isSome then sv.withDropped ids
  else sv

/-- `drop_range`; when the strategy picks nothing, one table with many masked rows may be rewritten
(`densityRewrite`). -/
def dropRange [RawKey K] (densityRewrite : SuperVersion K V → Option (SuperVersion K V))
    (hidden : List ℕ) (b : OwnedBounds K) (sv : SuperVersion K V) : SuperVersion K V :=
  if b.isEmpty then sv
  else
    match b.choose hidden sv.version with
    | some ids => sv.dropTables hidden ids
    | none => (densityRewrite sv).getD sv

def Rewrites (hidden : List ℕ) (sv sv' : SuperVersion K V) : Prop :=
  ∃ t ∈ sv.version.tables, t.id ∉ hidden ∧ ∃ (outputs : List (Table K V)) (destLevel : ℕ),
    destLevel < sv.version.levels.length ∧
      (∀ o ∈ outputs, ∀ t ∈ sv.version.tables, o.id ≠ t.id) ∧
      sv'.version = sv.version.withMerge [t.id] outputs destLevel

def tombstonesOutside (sv : SuperVersion K V) (b : OwnedBounds K) : List (RangeTombstone K) :=
  (sv.version.tables.filter fun t => !b.contains t.keyRange).flatMap (·.rangeTombstones) ++
    sv.memtablesNewestFirst.flatMap (·.rangeTombstones)

/-- The exact condition under which `drop_range` does what it is for. -/
structure Droppable [RawKey K] (densityRewrite : SuperVersion K V → Option (SuperVersion K V))
    (hidden : List ℕ) (b : OwnedBounds K) (sv : SuperVersion K V) : Prop where
  /-- bounds that are inverted as bytes have no table between them -/
  ordered : b.isEmpty = true → ∀ t ∈ sv.version.tables, ¬ b.Inside t.keyRange
  notHidden : b.isEmpty = false → ∀ t ∈ sv.version.tables, b.Inside t.keyRange → t.id ∉ hidden
  idle : b.isEmpty = false → (∀ t ∈ sv.version.tables, ¬ b.Inside t.keyRange) →
    densityRewrite sv = none
  /-- a key outside needs no range tombstone of a table inside -/
  tombstones : ∀ k, ¬ b.Holds k → ∀ seqno,
    Informed (sv.tombstonesOutside b) sv.rangeTombstones seqno (sv.history k seqno)

def Removes (b : OwnedBounds K) (sv sv' : SuperVersion K V) : Prop :=
  ∀ t, t ∈ sv'.version.tables ↔ t ∈ sv.version.tables ∧ ¬ b.Inside t.keyRange

def KeepsOutside (b : OwnedBounds K) (sv sv' : SuperVersion K V) : Prop :=
  ∀ k, ¬ b.Holds k → ∀ op seqno, sv'.get op k seqno = sv.get op k seqno ∧
    sv'.scanValue op k seqno = sv.scanValue op k seqno

section Exactness

variable {sv : SuperVersion K V} {b : OwnedBounds K} {hidden : List ℕ} {k : K} {seqno : ℕ}

theorem sortedRuns (sv : SuperVersion K V) : ∀ run ∈ sv.version.levels.flatten, SortedRun run := by
  intro run hrun
  obtain ⟨level, hl, hr⟩ := mem_flatten.1 hrun
  exact (sortedRun hl hr).1

theorem mem_containedIds (sv : SuperVersion K V) {id : ℕ} : id ∈ b.containedIds sv.version ↔
    ∃ t ∈ sv.version.tables, b.Inside t.keyRange ∧ t.id = id :=
  OwnedBounds.mem_containedIds sv.sortedRuns fun t ht => (sv.tablesWF t ht).valid

theorem mem_containedIds_iff (hids : sv.version.DistinctIds) {t : Table K V}
    (ht : t ∈ sv.version.tables) :
    t.id ∈ b.containedIds sv.version ↔ b.Inside t.keyRange := by
  rw [sv.mem_containedIds]
  constructor
  · rintro ⟨t', ht', hin, hid⟩
    rwa [← inj_on_of_nodup_map hids ht' ht hid]
  · exact fun hin => ⟨t, ht, hin, rfl⟩

theorem dropTables_containedIds (hne : b.containedIds sv.version ≠ [])
    (hhidden : ∀ id ∈ b.containedIds sv.version, id ∉ hidden) :
    sv.dropTables hidden (b.containedIds sv.version) =
      sv.withDropped (b.containedIds sv.version) := by
  have hpass : ((b.containedIds sv.version).isEmpty ||
      (b.containedIds sv.version).any (· ∈ hidden)) = false := by
    simpa [hne] using hhidden
  have hpresent : ((b.containedIds sv.version).all
      fun id => (sv.version.getTable id).isSome) = true := by
    rw [all_eq_true]
    intro id hid
    obtain ⟨t, ht, -, hid⟩ := sv.mem_containedIds.1 hid
    exact find?_isSome.2 ⟨t, ht, beq_iff_eq.2 hid⟩
  rw [dropTables, hpass, hpresent]
  rfl

theorem dropRange_cases [RawKey K] (densityRewrite : SuperVersion K V → Option (SuperVersion K V))
    (hidden : List ℕ) (b : OwnedBounds K) (sv : SuperVersion K V) :
    (b.isEmpty = true ∧ sv.dropRange densityRewrite hidden b = sv) ∨
    (b.isEmpty = false ∧
      (∃ t ∈ sv.version.tables, b.Inside t.keyRange) ∧
      (∀ t ∈ sv.version.tables, b.Inside t.keyRange → t.id ∉ hidden) ∧
      sv.dropRange densityRewrite hidden b = sv.withDropped (b.containedIds sv.version)) ∨
    (b.isEmpty = false ∧
      ((∃ t ∈ sv.version.tables, b.Inside t.keyRange ∧ t.id ∈ hidden) ∨
        ∀ t ∈ sv.version.tables, ¬ b.Inside t.keyRange) ∧
      sv.dropRange densityRewrite hidden b = (densityRewrite sv).getD sv) := by
  rw [dropRange]
  by_cases hempty : b.isEmpty = true
  · exact Or.inl ⟨hempty, if_pos hempty⟩
  · rw [if_neg hempty]
    rw [Bool.not_eq_true] at hempty
    apply Or.inr
    by_cases hhidden : ∃ id ∈ b.containedIds sv.version, id ∈ hidden
    · have hnone : b.choose hidden sv.version = none := by
        rw [OwnedBounds.choose, if_pos]
        simpa using Or.inl hhidden
      obtain ⟨id, hid, hin⟩ := hhidden
      obtain ⟨t, ht, hinside, rfl⟩ := sv.mem_containedIds.1 hid
      exact Or.inr ⟨hempty, Or.inl ⟨t, ht, hinside, hin⟩, by rw [hnone]⟩
    · push Not at hhidden
      by_cases hnil : b.containedIds sv.version = []
      · have hnone : b.choose hidden sv.version = none := by simp [OwnedBounds.choose, hnil]
        refine Or.inr ⟨hempty, Or.inr ?_, by rw [hnone]⟩
        intro t ht hin
        have hid := sv.mem_containedIds.2 ⟨t, ht, hin, rfl⟩
        rw [hnil] at hid
        cases hid
      · have hsome : b.choose hidden sv.version = some (b.containedIds sv.version) := by
          rw [OwnedBounds.choose, if_neg]
          simpa [hnil] using hhidden
        obtain ⟨id, hid⟩ := exists_mem_of_ne_nil _ hnil
        obtain ⟨t, ht, hinside, -⟩ := sv.mem_containedIds.1 hid
        refine Or.inl ⟨hempty, ⟨t, ht, hinside⟩, ?_, ?_⟩
        · exact fun t ht hin => hhidden t.id (sv.mem_containedIds.2 ⟨t, ht, hin, rfl⟩)
        · rw [hsome]
          exact dropTables_containedIds hnil hhidden

theorem withDropped_removes (hids : sv.version.DistinctIds) :
    Removes b sv (sv.withDropped (b.containedIds sv.version)) := by
  intro t
  rw [withDropped, Version.withDropped_perm.mem_iff, mem_filter, decide_eq_true_eq]
  apply and_congr_right
  intro ht
  exact not_congr (mem_containedIds_iff hids ht)

theorem withDropped_writtenOnce (h : sv.WrittenOnce) (ids : List ℕ) :
    (sv.withDropped ids).WrittenOnce := by
  obtain ⟨hmem, htables, hcross⟩ := pairwise_append.1 h
  rw [pairwise_map] at htables
  refine pairwise_append.2 ⟨hmem, ?_, ?_⟩
  · rw [pairwise_map]
    exact (Version.withDropped_perm.pairwise_iff TieFree.symm).2 (htables.filter _)
  · intro a ha c hc
    obtain ⟨t, ht, rfl⟩ := mem_map.1 hc
    have htv := (mem_filter.1 (Version.withDropped_perm.mem_iff.1 ht)).1
    exact hcross a ha _ (mem_map_of_mem htv)

theorem agreeAt_withDropped (hids : sv.version.DistinctIds) (hk : ¬ b.Holds k) :
    AgreeAt k sv (sv.withDropped (b.containedIds sv.version)) where
  activeMemtable := rfl
  sealedMemtables := rfl
  depth := by simp [withDropped, Version.withDropped]
  tables i t hc := by
    rw [withDropped, Version.mem_level_withDropped, iff_self_and]
    intro ht hid
    have hin := (mem_containedIds_iff hids (Version.mem_tables_of_level ht)).1 hid
    simp only [KeyRange.containsKey, decide_eq_true_eq] at hc
    exact hk (hin k hc.1 hc.2)

theorem mem_rangeTombstones_withDropped (hids : sv.version.DistinctIds) (rt : RangeTombstone K) :
    rt ∈ (sv.withDropped (b.containedIds sv.version)).rangeTombstones ↔
      rt ∈ sv.tombstonesOutside b := by
  rw [mem_rangeTombstones, tombstonesOutside, mem_append, mem_flatMap, mem_flatMap]
  apply or_congr_left
  apply exists_congr
  intro t
  rw [withDropped_removes hids t, mem_filter]
  apply and_congr_left
  intro _
  apply and_congr_right
  intro ht
  rw [← OwnedBounds.contains_iff (sv.tablesWF t ht).valid, Bool.not_eq_true, Bool.not_eq_true']

theorem tombstonesOutside_subset : sv.tombstonesOutside b ⊆ sv.rangeTombstones := by
  intro rt hrt
  rw [mem_rangeTombstones]
  rcases mem_append.1 hrt with hrt | hrt
  · obtain ⟨t, ht, hin⟩ := mem_flatMap.1 hrt
    exact Or.inl ⟨t, (mem_filter.1 ht).1, hin⟩
  · obtain ⟨m, hm, hin⟩ := mem_flatMap.1 hrt
    exact Or.inr ⟨m, hm, hin⟩

theorem Informed.congr {seen seen' all : List (RangeTombstone K)} {es : List (InternalValue K V)}
    (h : Informed seen all seqno es) (hmem : ∀ rt, rt ∈ seen ↔ rt ∈ seen') :
    Informed seen' all seqno es := by
  intro operands x older hes hops ht hs
  rw [← isRtSuppressed_congr x fun rt _ _ => hmem rt]
  exact h operands x older hes hops ht hs

theorem keepsOutside_withDropped_iff [Nontrivial V] (honce : sv.WrittenOnce)
    (hids : sv.version.DistinctIds) :
    KeepsOutside b sv (sv.withDropped (b.containedIds sv.version)) ↔
      ∀ k, ¬ b.Holds k → ∀ seqno,
        Informed (sv.tombstonesOutside b) sv.rangeTombstones seqno (sv.history k seqno) := by
  have hmem : ∀ rt, rt ∈ (sv.withDropped (b.containedIds sv.version)).rangeTombstones ↔
      rt ∈ sv.tombstonesOutside b := mem_rangeTombstones_withDropped hids
  have hsub : (sv.withDropped (b.containedIds sv.version)).rangeTombstones ⊆ sv.rangeTombstones :=
    fun rt hrt => tombstonesOutside_subset ((hmem rt).1 hrt)
  have honce' := withDropped_writtenOnce honce (b.containedIds sv.version)
  constructor
  · intro h k hk seqno
    have hagree := agreeAt_withDropped hids hk
    exact ((hagree.scanValue_eq_iff honce honce' hsub).1 fun op => (h k hk op seqno).2).congr hmem
  · intro h k hk op seqno
    have hagree := agreeAt_withDropped hids hk
    refine ⟨(hagree.get_eq honce honce').symm, ?_⟩
    refine (hagree.scanValue_eq_iff honce honce' hsub).2 ?_ op
    exact (h k hk seqno).congr fun rt => (hmem rt).symm

theorem informed_of_none_inside (hnone : ∀ t ∈ sv.version.tables, ¬ b.Inside t.keyRange)
    (es : List (InternalValue K V)) :
    Informed (sv.tombstonesOutside b) sv.rangeTombstones seqno es := by
  have hmem : ∀ rt, rt ∈ sv.rangeTombstones ↔ rt ∈ sv.tombstonesOutside b := by
    refine fun rt => ⟨fun hrt => ?_, fun hrt => tombstonesOutside_subset hrt⟩
    rcases mem_rangeTombstones.1 hrt with ⟨t, ht, hin⟩ | ⟨m, hm, hin⟩
    · have hc : b.contains t.keyRange = false := by
        rw [← Bool.not_eq_true, OwnedBounds.contains_iff (sv.tablesWF t ht).valid]
        exact hnone t ht
      apply mem_append_left
      exact mem_flatMap.2 ⟨t, mem_filter.2 ⟨ht, by rw [hc]; rfl⟩, hin⟩
    · exact mem_append_right _ (mem_flatMap.2 ⟨m, hm, hin⟩)
  have hself : Informed sv.rangeTombstones sv.rangeTombstones seqno es := fun _ _ _ _ _ _ hs => hs
  exact hself.congr hmem

theorem removes_self_iff :
    Removes b sv sv ↔ ∀ t ∈ sv.version.tables, ¬ b.Inside t.keyRange := by
  constructor
  · exact fun h t ht => ((h t).1 ht).2
  · exact fun h t => ⟨fun ht => ⟨ht, h t ht⟩, And.left⟩

theorem Rewrites.keeps_hidden {sv' : SuperVersion K V} (h : Rewrites hidden sv sv')
    {t : Table K V} (ht : t ∈ sv.version.tables) (hid : t.id ∈ hidden) :
    t ∈ sv'.version.tables := by
  obtain ⟨source, -, hsource, outputs, destLevel, hlevel, -, hversion⟩ := h
  rw [hversion, Version.mem_tables_withMerge hlevel]
  refine Or.inl ⟨ht, fun hmem => hsource ?_⟩
  rwa [← mem_singleton.1 hmem]

theorem Rewrites.removes_source {sv' : SuperVersion K V} (h : Rewrites hidden sv sv') :
    ∃ t ∈ sv.version.tables, t ∉ sv'.version.tables := by
  obtain ⟨source, hmem, -, outputs, destLevel, hlevel, hfresh, hversion⟩ := h
  refine ⟨source, hmem, ?_⟩
  rw [hversion, Version.mem_tables_withMerge hlevel]
  rintro (⟨-, hid⟩ | hout)
  · exact hid (mem_singleton.2 rfl)
  · exact hfresh source hout source hmem rfl

/-- `drop_range` removes exactly the tables inside the range and leaves every read outside the
range as it was, exactly under `Droppable`. -/
theorem dropRange_exact_iff [RawKey K] [Nontrivial V]
    (densityRewrite : SuperVersion K V → Option (SuperVersion K V)) (hidden : List ℕ)
    (b : OwnedBounds K) (sv : SuperVersion K V) (honce : sv.WrittenOnce)
    (hids : sv.version.DistinctIds)
    (hrewrite : ∀ sv', densityRewrite sv = some sv' → Rewrites hidden sv sv') :
    (Removes b sv (sv.dropRange densityRewrite hidden b) ∧
      KeepsOutside b sv (sv.dropRange densityRewrite hidden b)) ↔
    sv.Droppable densityRewrite hidden b := by
  have hsame : KeepsOutside b sv sv := fun k _ op seqno => ⟨rfl, rfl⟩
  rcases dropRange_cases densityRewrite hidden b sv with
    ⟨hempty, heq⟩ | ⟨hempty, ⟨t₀, ht₀, hin₀⟩, hvisible, heq⟩ | ⟨hempty, hpicked, heq⟩
  · -- the bounds are inverted as bytes: nothing happens
    rw [heq, removes_self_iff]
    constructor
    · rintro ⟨hnone, -⟩
      exact ⟨fun _ => hnone, fun h => by simp [hempty] at h, fun h => by simp [hempty] at h,
        fun k _ seqno => informed_of_none_inside hnone _⟩
    · exact fun h => ⟨h.ordered hempty, hsame⟩
  · rw [heq, keepsOutside_withDropped_iff honce hids]
    constructor
    · rintro ⟨-, htombstones⟩
      exact ⟨fun h => by simp [hempty] at h, fun _ => hvisible,
        fun _ hnone => absurd hin₀ (hnone t₀ ht₀), htombstones⟩
    · exact fun h => ⟨withDropped_removes hids, h.tombstones⟩
  · rw [heq]
    rcases hpicked with ⟨t, ht, hin, hhid⟩ | hnone
    · -- a hidden table stays, whether or not another one is rewritten
      have hstays : t ∈ ((densityRewrite sv).getD sv).version.tables := by
        cases hd : densityRewrite sv with
        | none => exact ht
        | some sv' => exact (hrewrite sv' hd).keeps_hidden ht hhid
      constructor
      · exact fun h => absurd hin ((h.1 t).1 hstays).2
      · exact fun h => absurd hhid (h.notHidden hempty t ht hin)
    · cases hd : densityRewrite sv with
      | none =>
        refine ⟨fun _ => ?_, fun _ => ⟨removes_self_iff.2 hnone, hsame⟩⟩
        exact ⟨fun h => by simp [hempty] at h, fun _ t ht hin => absurd hin (hnone t ht),
          fun _ _ => hd, fun k _ seqno => informed_of_none_inside hnone _⟩
      | some sv' =>
        obtain ⟨t, ht, hgone⟩ := (hrewrite sv' hd).removes_source
        constructor
        · exact fun h => absurd ((h.1 t).2 ⟨ht, hnone t ht⟩) hgone
        · intro h
          have := h.idle hempty hnone
          rw [hd] at this
          cases this

end Exactness

section Example

/-- From `b` to `d`: the lower table. -/
def lowerRange : OwnedBounds (List Byte) := ⟨.included [98], .included [100]⟩

/-- From `a` to `c`: the upper table, whose range delete reaches on to `d`. -/
def upperRange : OwnedBounds (List Byte) := ⟨.included [97], .included [99]⟩

theorem wideDelete_writtenOnce : wideDelete.WrittenOnce := by
  unfold WrittenOnce TieFree
  decide

def descendingTable : Table ReversedKey ℕ :=
  ⟨1, ⟨reversed 9, reversed 1⟩, [⟨reversed 9, 1, .value, 7⟩, ⟨reversed 1, 2, .value, 8⟩], []⟩

def descending : SuperVersion ReversedKey ℕ where
  activeMemtable := ⟨[], [], List.Pairwise.nil⟩
  sealedMemtables := []
  version := ⟨[[[descendingTable]]]⟩
  levelsInOrder := by decide
  tablesWF := by decide
  tablesSorted := by decide

def descendingRange : OwnedBounds ReversedKey := ⟨.included (reversed 9), .included (reversed 1)⟩

theorem wideDelete_dropLower : wideDelete.WrittenOnce ∧ wideDelete.version.DistinctIds ∧
    Removes lowerRange wideDelete (wideDelete.dropRange (fun _ => none) [] lowerRange) ∧
    KeepsOutside lowerRange wideDelete
      (wideDelete.dropRange (fun _ => none) [] lowerRange) := by
  have hids : wideDelete.version.DistinctIds := by
    unfold Version.DistinctIds
    decide
  refine ⟨wideDelete_writtenOnce, hids, (dropRange_exact_iff (fun _ => none) [] lowerRange
    wideDelete wideDelete_writtenOnce hids nofun).2 ?_⟩
  refine ⟨fun h => absurd h (by decide), fun _ _ _ _ => by simp, fun _ _ => rfl, ?_⟩
  have hsame : wideDelete.tombstonesOutside lowerRange = wideDelete.rangeTombstones := by decide
  intro k _ seqno _ _ _ _ _ _ hs
  rw [hsame]
  exact hs

/-- A range that the comparator reads downwards removes nothing; and with the upper table its
range delete goes, so that the scan shows `d` again. -/
theorem dropRange_misses_and_undeletes :
    (descendingRange.Holds (reversed 5) ∧ descendingRange.Inside descendingTable.keyRange ∧
      descending.WrittenOnce ∧ descending.version.DistinctIds ∧
      descendingTable ∈ (descending.dropRange (fun _ => none) [] descendingRange).version.tables) ∧
    (upperRange.Holds [98] ∧ ¬ upperRange.Holds [100] ∧
      wideDelete.WrittenOnce ∧ wideDelete.version.DistinctIds ∧
      wideDelete.scanValue none [100] 10 = none ∧
      (wideDelete.dropRange (fun _ => none) [] upperRange).scanValue none [100] 10 = some 4) := by
  constructor
  · refine ⟨?_, ?_, ?_, ?_, by decide⟩
    · unfold OwnedBounds.Holds descendingRange
      decide
    · exact (OwnedBounds.contains_iff (by decide)).1 (by decide)
    · unfold WrittenOnce TieFree
      decide
    · unfold Version.DistinctIds
      decide
  · refine ⟨?_, ?_, wideDelete_writtenOnce, ?_, by decide, by decide⟩
    · unfold OwnedBounds.Holds upperRange
      decide
    · unfold OwnedBounds.Holds upperRange
      decide
    · unfold Version.DistinctIds
      decide

end Example

end SuperVersion

end LsmTree
