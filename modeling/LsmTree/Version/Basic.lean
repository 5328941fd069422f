import LsmTree.Entry
import LsmTree.Theory.FirstFit

/-! Versions: levels of runs of tables, and the transforms that install a flush, a merge or a move.
-/
namespace LsmTree

open List

structure KeyRange (K : Type*) where
  min : K
  max : K
  deriving DecidableEq, Repr

class TableMeta (T : Type*) (K : outParam (Type*)) where
  id : T → ℕ
  keyRange : T → KeyRange K

export TableMeta (keyRange)

section KeyRange

variable {K : Type*} [LinearOrder K]

namespace KeyRange

def containsKey (r : KeyRange K) (k : K) : Bool := decide (r.min ≤ k ∧ k ≤ r.max)

def containsRange (a b : KeyRange K) : Bool := decide (a.min ≤ b.min ∧ b.max ≤ a.max)

/-- `overlaps_with_key_range_cmp` -/
def overlaps (a b : KeyRange K) : Bool := decide (b.min ≤ a.max ∧ a.min ≤ b.max)

theorem overlaps_iff {a b : KeyRange K} :
    a.overlaps b = true ↔ b.min ≤ a.max ∧ a.min ≤ b.max := by simp [overlaps]

theorem overlaps_comm (a b : KeyRange K) : a.overlaps b = b.overlaps a := by
  simp [overlaps, and_comm]

end KeyRange

end KeyRange

section Runs

variable {T K : Type*} [LinearOrder K] [TableMeta T K]

/-- `push_cmp`: append, then sort by smallest key; the sort is stable. -/
def pushCmp (run : List T) (t : T) : List T :=
  (run ++ [t]).insertionSort fun a b => (keyRange a).min ≤ (keyRange b).min

def fitsInRun (run : List T) (t : T) : Bool :=
  run.all fun x => !(keyRange t).overlaps (keyRange x)

/-- Re-packs the tables, last run and last table first, each into the last run it does not
overlap. A single run is left as it is. -/
def optimizeRuns (runs : List (List T)) : List (List T) :=
  if runs.length ≤ 1 then runs
  else (runs.reverse.flatMap List.reverse).foldl (FirstFit.place fitsInRun pushCmp) []

theorem pushCmp_perm (run : List T) (t : T) : (pushCmp run t).Perm (t :: run) :=
  (perm_insertionSort _ _).trans (perm_append_singleton t run)

theorem flatMap_reverse_perm (runs : List (List T)) :
    (runs.reverse.flatMap List.reverse).Perm runs.flatten := by
  rw [List.flatMap, map_reverse, ← reverse_flatten]
  exact reverse_perm _

theorem optimizeRuns_perm (runs : List (List T)) :
    (optimizeRuns runs).flatten.Perm runs.flatten := by
  unfold optimizeRuns
  split
  · exact List.Perm.refl _
  · have h : (List.foldl (FirstFit.place fitsInRun pushCmp) []
        (runs.reverse.flatMap List.reverse)).flatten.Perm _ := FirstFit.foldl_place_perm pushCmp_perm
    rw [flatten_nil, append_nil] at h
    exact h.trans (flatMap_reverse_perm runs)

/-- `get_for_key_cmp`: the first table that does not end before the key, if it covers it. -/
def getForKey (run : List T) (k : K) : Option T :=
  (run.dropWhile fun t => decide ((keyRange t).max < k)).head?.filter
    fun t => decide ((keyRange t).min ≤ k)

end Runs

structure Version (T : Type*) where
  levels : List (List (List T))
  deriving DecidableEq, Repr

namespace Version

variable {T K : Type*} [LinearOrder K] [TableMeta T K]

def tables (v : Version T) : List T := v.levels.flatten.flatten

def getTable (v : Version T) (id : ℕ) : Option T := v.tables.find? (TableMeta.id · == id)

def DistinctIds (v : Version T) : Prop := (v.tables.map TableMeta.id).Nodup

/-- A freshly flushed table starts as a run of its own at the top of L0. -/
def withNewL0Run (v : Version T) (run : List T) : Version T :=
  match v.levels with
  | [] => v
  | l0 :: rest => ⟨optimizeRuns (run.map ([·]) ++ l0) :: rest⟩

/-- The runs of a level that keep a table after the tables in `ids` are removed. -/
def retainRuns (ids : List ℕ) (runs : List (List T)) : List (List T) :=
  (runs.map fun run => run.filter fun t => TableMeta.id t ∉ ids).filter (!·.isEmpty)

/-- A level after the replacement: what it kept, and the new run in the target level. -/
def replacedLevel (ids : List ℕ) (run : List T) (destLevel : ℕ) (back : Bool) (i : ℕ)
    (runs : List (List T)) : List (List T) :=
  if i = destLevel ∧ run ≠ [] then
    optimizeRuns (if back then retainRuns ids runs ++ [run] else run :: retainRuns ids runs)
  else optimizeRuns (retainRuns ids runs)

/-- The body that `with_merge` and `with_moved` share: tables leave, a run enters one level. -/
def replaceTables (v : Version T) (ids : List ℕ) (run : List T) (destLevel : ℕ) (back : Bool) :
    Version T := ⟨v.levels.mapIdx (replacedLevel ids run destLevel back)⟩

/-- The outputs go below the other runs of L0, in front of the runs of a deeper level. -/
def withMerge (v : Version T) (oldIds : List ℕ) (newTables : List T) (destLevel : ℕ) :
    Version T :=
  v.replaceTables oldIds newTables destLevel (destLevel == 0)

def withMoved (v : Version T) (ids : List ℕ) (destLevel : ℕ) : Version T :=
  v.replaceTables ids (v.tables.filter fun t => TableMeta.id t ∈ ids) destLevel false

section Tables

variable {v : Version T} {ids : List ℕ} {run : List T} {destLevel : ℕ} {back : Bool} {t : T}

omit [LinearOrder K] in
theorem retainRuns_flatten (runs : List (List T)) :
    (retainRuns ids runs).flatten = runs.flatten.filter fun t => TableMeta.id t ∉ ids := by
  rw [retainRuns, flatten_filter_not_isEmpty, filter_flatten]

theorem replacedLevel_perm (i : ℕ) (runs : List (List T)) :
    (replacedLevel ids run destLevel back i runs).flatten.Perm
      ((if i = destLevel then run else []) ++
        runs.flatten.filter fun t => TableMeta.id t ∉ ids) := by
  unfold replacedLevel
  by_cases hi : i = destLevel ∧ run ≠ []
  · rw [if_pos hi, if_pos hi.1, ← retainRuns_flatten]
    refine (optimizeRuns_perm _).trans ?_
    cases back with
    | true => simpa using perm_append_comm
    | false => simp
  · rw [if_neg hi, ← retainRuns_flatten]
    refine (optimizeRuns_perm _).trans ?_
    have hnil : (if i = destLevel then run else []) = [] := by
      split
      · exact not_not.1 fun hne => hi ⟨‹_›, hne⟩
      · rfl
    rw [hnil, nil_append]

theorem replaceTables_perm :
    (v.replaceTables ids run destLevel back).tables.Perm
      ((if destLevel < v.levels.length then run else []) ++
        v.tables.filter fun t => TableMeta.id t ∉ ids) := by
  unfold tables replaceTables
  dsimp only
  generalize v.levels = levels
  induction levels generalizing destLevel with
  | nil => simp
  | cons runs levels ih =>
    have hshift : (levels.mapIdx fun i => replacedLevel ids run destLevel back (i + 1)) =
        if destLevel = 0 then levels.mapIdx (replacedLevel ids run levels.length back)
        else levels.mapIdx (replacedLevel ids run (destLevel - 1) back) := by
      split
      case isTrue h0 =>
        subst h0
        refine mapIdx_eq_mapIdx_iff.2 fun i hi => ?_
        simp [replacedLevel, Nat.ne_of_lt hi]
      case isFalse h0 =>
        refine mapIdx_eq_mapIdx_iff.2 fun i hi => ?_
        have : i + 1 = destLevel ↔ i = destLevel - 1 := by omega
        simp [replacedLevel, this]
    rw [mapIdx_cons, hshift, flatten_cons, flatten_append, flatten_cons,
      flatten_append, filter_append]
    have hhead : (replacedLevel ids run destLevel back 0 runs).flatten.Perm _ :=
      replacedLevel_perm 0 runs
    rcases Nat.eq_zero_or_pos destLevel with rfl | hpos
    · have htail := @ih levels.length
      simp only [lt_irrefl, if_false, if_true, nil_append, length_cons,
        Nat.zero_lt_succ] at htail hhead ⊢
      rw [← append_assoc]
      exact hhead.append htail
    · have htail := @ih (destLevel - 1)
      have hne : destLevel ≠ 0 := by omega
      have hlt : destLevel - 1 < levels.length ↔ destLevel < levels.length + 1 := by omega
      simp only [hne, hne.symm, if_false, nil_append, length_cons, hlt] at htail hhead ⊢
      refine (hhead.append htail).trans ?_
      rw [← append_assoc, ← append_assoc]
      exact perm_append_comm.append_right _

theorem mem_tables_replaceTables :
    t ∈ (v.replaceTables ids run destLevel back).tables ↔
      (t ∈ v.tables ∧ TableMeta.id t ∉ ids) ∨ (destLevel < v.levels.length ∧ t ∈ run) := by
  rw [replaceTables_perm.mem_iff, mem_append, mem_filter, decide_eq_true_eq, or_comm]
  refine or_congr Iff.rfl ?_
  split
  case isTrue h => exact (and_iff_right h).symm
  case isFalse h => simp [h]

theorem withNewL0Run_perm (h : v.levels ≠ []) : (v.withNewL0Run run).tables.Perm (run ++ v.tables) := by
  obtain ⟨l0, rest, hlevels⟩ := exists_cons_of_ne_nil h
  have hl0 := (optimizeRuns_perm (run.map ([·]) ++ l0)).append_right rest.flatten.flatten
  simpa [tables, withNewL0Run, hlevels, flatten_append, ← flatMap_def] using hl0

theorem mem_tables_withNewL0Run : (t ∈ (v.withNewL0Run run).tables → t ∈ run ∨ t ∈ v.tables) ∧
    (t ∈ v.tables → t ∈ (v.withNewL0Run run).tables) := by
  by_cases hlevels : v.levels = []
  · have hsame : v.withNewL0Run run = v := by simp [withNewL0Run, hlevels]
    rw [hsame]
    exact ⟨Or.inr, id⟩
  · rw [(withNewL0Run_perm hlevels).mem_iff, mem_append]
    exact ⟨id, Or.inr⟩

omit [LinearOrder K] [TableMeta T K] in
theorem mem_tables : t ∈ v.tables ↔
    ∃ (i : ℕ) (runs : List (List T)), v.levels[i]? = some runs ∧ t ∈ runs.flatten := by
  constructor
  · intro h
    obtain ⟨run, hrun, ht⟩ := mem_flatten.1 h
    obtain ⟨runs, hruns, hmem⟩ := mem_flatten.1 hrun
    obtain ⟨i, hi⟩ := mem_iff_getElem?.1 hruns
    exact ⟨i, runs, hi, mem_flatten.2 ⟨run, hmem, ht⟩⟩
  · rintro ⟨i, runs, hi, ht⟩
    obtain ⟨run, hmem, ht⟩ := mem_flatten.1 ht
    exact mem_flatten.2 ⟨run, mem_flatten.2 ⟨runs, mem_of_getElem? hi, hmem⟩, ht⟩

theorem mem_tables_withMerge {oldIds : List ℕ} {newTables : List T}
    (h : destLevel < v.levels.length) :
    t ∈ (v.withMerge oldIds newTables destLevel).tables ↔
      (t ∈ v.tables ∧ TableMeta.id t ∉ oldIds) ∨ t ∈ newTables := by
  rw [withMerge, mem_tables_replaceTables]
  exact or_congr Iff.rfl (and_iff_right h)

end Tables

end Version

end LsmTree
